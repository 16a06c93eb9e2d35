import DispCalc.ExprTree.Incomplete
import DispCalc.Supervisor.Dispatch

/-!
# Which calls of `chunk` a supervisor makes

`chunk` recurses for ever if its argument is negative. `run` and `dispatchTree` convert the height
that the user gave from `int` to `size_t` and back, and only heights from 1 on get through.
-/

namespace DispCalc.ClientControllerSupervisor

open ExprTree

variable {ι : Type}

/-- The supervisor of the token list `s` enters `chunk` of the tree `t` with the argument `maxH`:
in `dispatchTree`, or in a call from a call that it entered. -/
inductive Entered (s : List String) (max_h : Nat) : Int → ExprTree → Prop where
  | dispatch {t : ExprTree} (ht : regenerate s = .ok t) (hrun : max_h < toSizeT t.height) :
    Entered s max_h (toInt (maxHeight max_h)) t
  | call {maxH : Int} {t u : ExprTree} (h : Entered s max_h maxH t) (hcall : Calls maxH t u) :
    Entered s max_h maxH u

theorem maxHeight_range {t : ExprTree} (ht : Cuttable t) {max_h : Nat} (h : max_h < toSizeT t.height) :
    1 ≤ toInt (maxHeight max_h) ∧ toInt (maxHeight max_h) ≤ intMax := by
  obtain ⟨v, l, r, rfl, hheight, -⟩ := ht
  rw [height_heap (by simp), toSizeT_natural (by omega)] at h
  rw [toInt_maxHeight (by omega), maxHeight_eq]
  unfold intMax
  omega

theorem Entered.cuttable {s : List String} (hne : s ≠ []) (hnull : ∀ v ∈ s, v ≠ null) {max_h : Nat}
    {maxH : Int} {t : ExprTree} (h : Entered s max_h maxH t) :
    Cuttable t ∧ 1 ≤ maxH ∧ maxH ≤ intMax := by
  induction h with
  | dispatch ht hrun =>
    have hcut := cuttable_regenerate hne hnull ht
    exact ⟨hcut, maxHeight_range hcut hrun⟩
  | call _ hcall ih =>
    obtain ⟨hcut, hlow, hhigh⟩ := ih
    exact ⟨(hcut.calls (by omega) hcall).1, hlow, hhigh⟩

theorem exists_regenerate {s : List String} (hshallow : Shallow 29 [1, 1] s.reverse.tail)
    (hbranch : regenerate s ≠ .error .emptyBranch) : ∃ t, regenerate s = .ok t := by
  unfold regenerate at hbranch ⊢
  cases hrev : s.reverse with
  | nil => exact ⟨{}, rfl⟩
  | cons v rest =>
    rw [hrev] at hbranch
    rw [hrev, List.tail_cons] at hshallow
    obtain ⟨hshort, henough⟩ := foldlM_slots (onLevels_root v) hshallow
    by_cases hrun : RunsShort (Regen.slots ⟨({} : ExprTree).add 1 v, [], true, 1⟩).length rest
    · exact absurd (by simp only [hshort hrun]; rfl) hbranch
    · obtain ⟨s', hs'⟩ := henough hrun
      exact ⟨s'.tree, by simp only [hs']; rfl⟩

/-- **Cutting ends** for every list that gets a tree, complete or not, and every `int` that a user
gives for the height: `sendTasks` returns, `chunk` is entered with a height from 1 on, its calls
are on lower trees, and each of them returns. -/
theorem cutting_ends {s : List String} (hne : s ≠ []) (hnull : ∀ v ∈ s, v ≠ null)
    (hshallow : Shallow 29 [1, 1] s.reverse.tail) (hbranch : regenerate s ≠ .error .emptyBranch)
    (height : Int) :
    (∃ st : ClientControllerSupervisor ι, sendTasks s (toSizeT height) = .ok st) ∧
      ∀ maxH t, Entered s (toSizeT height) maxH t → 1 ≤ maxH ∧ maxH ≤ intMax ∧
        (∃ l, t.chunk maxH = .ok l) ∧ (∀ u, Calls maxH t u → u.height < t.height) ∧
        Acc (fun u t => Calls maxH t u) t := by
  constructor
  · obtain ⟨t, ht⟩ := exists_regenerate hshallow hbranch
    have hcut := cuttable_regenerate hne hnull ht
    unfold sendTasks run
    rw [ht, Except.ok_bind]
    split
    · exact ⟨_, rfl⟩
    · rename_i hlt
      have hrange := maxHeight_range hcut (Nat.lt_of_not_le hlt)
      obtain ⟨l, hl⟩ := hcut.chunk_returns (by omega : 0 ≤ toInt (maxHeight (toSizeT height)))
      obtain ⟨st, hst, -⟩ := dispatchTree_of_chunk (ι := ι) hl
      exact ⟨st, hst⟩
  · intro maxH t h
    obtain ⟨hcut, hlow, hhigh⟩ := h.cuttable hne hnull
    have hnonneg : 0 ≤ maxH := by omega
    exact ⟨hlow, hhigh, hcut.chunk_returns hnonneg, fun u hcall => (hcut.calls hnonneg hcall).2,
      hcut.acc_calls hnonneg⟩

/-- `3 ADD ADD` lacks operands for both operators, and its tree is cut at height 1. -/
theorem cutting_ends_of_incomplete :
    (∃ st : ClientControllerSupervisor Nat, sendTasks ["3", "ADD", "ADD"] (toSizeT 0) = .ok st) ∧
      ∀ maxH t, Entered ["3", "ADD", "ADD"] (toSizeT 0) maxH t → 1 ≤ maxH ∧ maxH ≤ intMax ∧
        (∃ l, t.chunk maxH = .ok l) ∧ (∀ u, Calls maxH t u → u.height < t.height) ∧
        Acc (fun u t => Calls maxH t u) t :=
  cutting_ends (by decide) (by decide) (by simp [Shallow, isOp]) (by decide) 0

end DispCalc.ClientControllerSupervisor
