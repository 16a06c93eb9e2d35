import DispCalc.ExprTree.Forest
import DispCalc.ExprTree.Slots

/-!
# Lists that become a tree

`regenerate` takes the last token for the root and has room for two expressions below it, each at
most 29 high. On a list of expressions it returns just when no more than that remains.
-/

open Postfix Layout

namespace DispCalc.ExprTree

open OpExpr

/-- What remains below the root, in the order of the loop. -/
def branches {α ω : Type} (ts : List (Expr α ω)) : List (Expr α ω) :=
  match ts.reverse with
  | [] => []
  | .leaf _ :: rest => rest
  | .node _ l r :: rest => r :: l :: rest

def LaidOut {α ω : Type} (ts : List (Expr α ω)) : Prop :=
  (branches ts).length ≤ 2 ∧ ∀ e ∈ branches ts, e.height ≤ 29

theorem laidOut_map {α β ω : Type} (h : α → β) (ts : List (Expr α ω)) :
    LaidOut (ts.map (Expr.map h)) ↔ LaidOut ts := by
  have hbranches : branches (ts.map (Expr.map h)) = (branches ts).map (Expr.map h) := by
    unfold branches
    rw [← List.map_reverse]
    rcases ts.reverse with _ | ⟨_ | ⟨o, l, r⟩, rest⟩ <;> rfl
  unfold LaidOut
  rw [hbranches, List.length_map, List.forall_mem_map]
  simp only [Expr.height_map]

theorem laidOut_one {α ω : Type} (e : Expr α ω) : LaidOut [e] ↔ e.height ≤ 30 := by
  cases e with
  | leaf a => simp [LaidOut, branches]
  | node o l r =>
    simp only [LaidOut, branches, List.reverse_singleton, List.length_cons, List.length_nil,
      List.forall_mem_cons, Expr.height_node]
    constructor
    · rintro ⟨-, hr, hl, -⟩
      omega
    · intro h
      exact ⟨by omega, by omega, by omega, by simp⟩

/-- The tokens of expressions in the order of the loop. -/
def loopTokens (es : List OpExpr) : List String := es.flatMap fun e => (tokens e).reverse

theorem loopTokens_cons (e : OpExpr) (es : List OpExpr) :
    loopTokens (e :: es) = (tokens e).reverse ++ loopTokens es := List.flatMap_cons

theorem reverse_codes (ts : List OpExpr) :
    (codes Operand.text Op.name ts).reverse = loopTokens ts.reverse :=
  List.reverse_flatMap

theorem foldlM_branches (es : List OpExpr) {s : Regen} {ns : List Nat} (h : s.slots = ns)
    (hns : ∀ n ∈ ns, n = 2 ∨ n = 3) :
    (∃ s', (loopTokens es).foldlM regenStep s = .ok s') ↔
      es.length ≤ ns.length ∧ ∀ e ∈ es, Expr.height e ≤ 29 := by
  induction es generalizing s ns with
  | nil => simp [loopTokens, pure, Except.pure]
  | cons e es ih =>
    rw [loopTokens_cons]
    cases ns with
    | nil =>
      obtain ⟨v, vs, hvs⟩ := List.exists_cons_of_ne_nil (show (tokens e).reverse ≠ [] by
        simp [tokens, Expr.code_ne_nil])
      rw [hvs, List.cons_append, List.foldlM_cons, regenStep_no_slots h, Except.error_bind]
      simp
    | cons n ns =>
      obtain ⟨eb, hslot, rfl⟩ := slot_of_slots h
      have hn := hns n List.mem_cons_self
      have hns' : ∀ m ∈ eb.map (2 * ·), m = 2 ∨ m = 3 := fun m hm => hns m (List.mem_cons_of_mem n hm)
      rw [List.forall_mem_cons]
      constructor
      · rintro ⟨s', hrun⟩
        obtain ⟨s1, he, hes⟩ := Except.foldlM_append_eq_ok.mp hrun
        obtain ⟨-, heb, hop⟩ := regen_tokens_of_ok e hslot he
        have hslots : s1.slots = eb.map (2 * ·) := by rw [Regen.slots, hop, heb]; rfl
        obtain ⟨hlen, hall⟩ := (ih hslots hns').mp ⟨s', hes⟩
        refine ⟨Nat.succ_le_succ hlen, ?_, hall⟩
        by_contra hheight
        have hroom := room_of_ok e hslot he
        have : 2 * 2 ^ 30 ≤ n * 2 ^ Expr.height e :=
          Nat.mul_le_mul (by omega) (Nat.pow_le_pow_right (by omega) (by omega))
        omega
      · rintro ⟨hlen, hheight, hall⟩
        have hroom : (n + 1) * 2 ^ Expr.height e ≤ 2 ^ 31 :=
          calc (n + 1) * 2 ^ Expr.height e ≤ 4 * 2 ^ 29 :=
                Nat.mul_le_mul (by omega) (Nat.pow_le_pow_right (by omega) hheight)
            _ = 2 ^ 31 := by norm_num
        obtain ⟨s1, he, -, heb, hop⟩ := regen_tokens e hslot hroom
        have hslots : s1.slots = eb.map (2 * ·) := by rw [Regen.slots, hop, heb]; rfl
        rw [List.foldlM_append, he, Except.ok_bind]
        exact (ih hslots hns').mpr ⟨Nat.le_of_succ_le_succ hlen, hall⟩

theorem loopTokens_root {ts : List OpExpr} (h : ts ≠ []) :
    ∃ v, loopTokens ts.reverse = v :: loopTokens (branches ts) := by
  unfold branches
  obtain ⟨e, rest, hrev⟩ := List.exists_cons_of_ne_nil (List.reverse_ne_nil_iff.mpr h)
  rw [hrev]
  cases e with
  | leaf a => exact ⟨a.text, by rw [loopTokens_cons]; rfl⟩
  | node o l r => exact ⟨o.name, by simp [loopTokens_cons]⟩

theorem regenerate_codes_iff (ts : List OpExpr) :
    (∃ t, regenerate (codes Operand.text Op.name ts) = .ok t) ↔ LaidOut ts := by
  by_cases hts : ts = []
  · subst hts
    exact ⟨fun _ => ⟨Nat.zero_le 2, by simp [branches]⟩, fun _ => ⟨{}, rfl⟩⟩
  · obtain ⟨v, hroot⟩ := loopTokens_root hts
    have hslots : Regen.slots ⟨({} : ExprTree).add 1 v, [], true, 1⟩ = [3, 2] := rfl
    have hiff := foldlM_branches (branches ts) hslots (by simp)
    rw [regenerate, reverse_codes, hroot]
    refine Iff.trans ?_ hiff
    simp only [Except.bind_eq_ok]
    constructor
    · rintro ⟨t, s', hrun, -⟩
      exact ⟨s', hrun⟩
    · rintro ⟨s', hrun⟩
      exact ⟨s'.tree, s', hrun, rfl⟩

end DispCalc.ExprTree
