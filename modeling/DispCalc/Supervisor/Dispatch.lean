import DispCalc.ExprTree.Cut
import DispCalc.ExprTree.Tasks
import DispCalc.Supervisor.Invariant

/-!
# What a supervisor starts with

`run` evaluates small trees itself and dispatches the others. A dispatched list of tokens has
an element that needs a task, and for an expression the elements are the pieces of its cut.
-/

open Postfix

namespace DispCalc.ClientControllerSupervisor

variable {ι : Type}

/-- The supervisor of the token list `s` takes the dispatch branch of `run`, and is in the
state `st` before its loop. -/
def Dispatches (s : List String) (max_h : Nat) (st : ClientControllerSupervisor ι) : Prop :=
  ∃ tree, ExprTree.regenerate s = .ok tree ∧ max_h < toSizeT tree.height ∧
    dispatchTree tree max_h = .ok st

def HasWork (st : ClientControllerSupervisor ι) : Prop := ∃ t ∈ st.chunkedTree, t.height ≠ 0

/-- `dispatchTree` gives `chunk` a height of at least 1. -/
def maxHeight (max_h : Nat) : Nat := if max_h < 1 then 1 else max_h

theorem maxHeight_eq (max_h : Nat) : maxHeight max_h = max max_h 1 := by
  unfold maxHeight
  split <;> omega

theorem toInt_maxHeight {max_h : Nat} (h : max_h ≤ 30) : toInt (maxHeight max_h) = (maxHeight max_h : Nat) :=
  toInt_of_le (by rw [maxHeight_eq]; omega)

theorem dispatchTree_ok {tree : ExprTree} {max_h : Nat} {st : ClientControllerSupervisor ι}
    (h : dispatchTree tree max_h = .ok st) :
    tree.chunk (toInt (maxHeight max_h)) = .ok st.chunkedTree ∧ Fresh st := by
  unfold dispatchTree at h
  change (tree.chunk (toInt (maxHeight max_h)) >>= _) = _ at h
  rcases hchunk : tree.chunk (toInt (maxHeight max_h)) with f | chunkedTree
  · rw [hchunk] at h
    cases h
  · rw [hchunk] at h
    obtain rfl := Except.ok.inj h
    exact ⟨rfl, ⟨rfl, rfl, rfl⟩, rfl, fun _ => rfl, ⟨rfl, rfl, rfl⟩⟩

theorem dispatchTree_of_chunk {tree : ExprTree} {max_h : Nat} {l : List ExprTree}
    (h : tree.chunk (toInt (maxHeight max_h)) = .ok l) :
    ∃ st : ClientControllerSupervisor ι, dispatchTree tree max_h = .ok st ∧ st.chunkedTree = l := by
  rcases hst : (dispatchTree tree max_h : Except Fault (ClientControllerSupervisor ι)) with f | st
  · unfold dispatchTree at hst
    change (tree.chunk (toInt (maxHeight max_h)) >>= _) = _ at hst
    rw [h] at hst
    cases hst
  · exact ⟨st, rfl, Except.ok.inj ((dispatchTree_ok hst).1.symm.trans h)⟩

theorem Dispatches.fresh {s : List String} {max_h : Nat} {st : ClientControllerSupervisor ι}
    (h : Dispatches s max_h st) : Fresh st := by
  obtain ⟨tree, -, -, hdispatch⟩ := h
  exact (dispatchTree_ok hdispatch).2

theorem sendTasks_of_dispatches {s : List String} {max_h : Nat} {st : ClientControllerSupervisor ι}
    (h : Dispatches s max_h st) : sendTasks s max_h = .ok st := by
  obtain ⟨tree, htree, hlt, hdispatch⟩ := h
  simp only [sendTasks, htree, bind, Except.bind, run]
  rw [if_neg (by omega), hdispatch]

theorem toInt_ge (n : Nat) : intMin ≤ toInt n := by
  unfold intMin toInt
  have := Int.le_bmod (x := n) (m := 2 ^ 32) (by omega)
  omega

theorem toSizeT_natural {n : Nat} (h : n ≤ 30) : toSizeT n = n := by
  rw [toSizeT_of_nonneg (by omega) (by unfold InInt intMin intMax; omega), Int.toNat_natCast]

theorem Dispatches.hasWork {s : List String} {max_h : Nat} {st : ClientControllerSupervisor ι}
    (h : Dispatches s max_h st) (hnull : ∀ v ∈ s, v ≠ ExprTree.null) : HasWork st := by
  obtain ⟨tree, htree, hlt, hdispatch⟩ := h
  have hchunk := (dispatchTree_ok hdispatch).1
  match s, hnull with
  | [], _ =>
    obtain rfl := Except.ok.inj htree
    have hheight : ({} : ExprTree).height = intMin := rfl
    rw [ExprTree.chunk, ExprTree.chunkFrom, hheight, if_pos (toInt_ge _)] at hchunk
    rw [HasWork, ← Except.ok.inj hchunk]
    exact ⟨{}, by simp, by decide⟩
  | [v], _ =>
    obtain rfl := Except.ok.inj htree
    have hheight : (({} : ExprTree).add 1 v).height = (0 : Nat) :=
      ExprTree.height_heap (T := .node v .nil .nil) (by simp)
    rw [hheight, toSizeT_natural (by omega)] at hlt
    omega
  | v :: w :: rest, hnull =>
    obtain ⟨hgrown, hlen, hbound, -⟩ := ExprTree.grown_regenerate hnull htree (by simp)
    obtain ⟨height, hheight, hle⟩ := ExprTree.height_natural (by omega) hbound
    rw [hheight, toSizeT_natural hle] at hlt
    rw [toInt_maxHeight (by omega), maxHeight_eq] at hchunk
    obtain ⟨e, he, hpos⟩ := ExprTree.exists_height_of_chunkFrom (by omega) hgrown hlen hchunk
    exact ⟨e, he, by omega⟩

end DispCalc.ClientControllerSupervisor
