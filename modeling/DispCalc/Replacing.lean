import DispCalc.Computer

/-!
# Replacing a part of a list by its value

The loop of `compute` pushes the value of an expression onto whatever stack it finds. So the
tokens of an expression may be replaced by one numeral, as the tasks of a supervisor do, unless
a later token repeats the last result.
-/

open Postfix

namespace DispCalc

namespace IntExpr

/-- The value in the integers. -/
def exact : IntExpr → Int
  | .leaf n => n.value
  | .node o l r => o.exact (exact l) (exact r)

/-- The value of every subexpression is an `int`, and no divisor is 0. -/
def Fits : IntExpr → Prop
  | .leaf n => InInt n.value
  | .node o l r =>
    Fits l ∧ Fits r ∧ (o = .divide → exact r ≠ 0) ∧ InInt (o.exact (exact l) (exact r))

instance decidableFits : (e : IntExpr) → Decidable (Fits e)
  | .leaf n => inferInstanceAs (Decidable (InInt n.value))
  | .node o l r =>
    have := decidableFits l
    have := decidableFits r
    inferInstanceAs (Decidable (Fits l ∧ Fits r ∧ (o = .divide → exact r ≠ 0) ∧
      InInt (o.exact (exact l) (exact r))))

theorem Fits.value {e : IntExpr} (h : Fits e) : IntExpr.value e = .ok (exact e) := by
  induction e with
  | leaf n => rfl
  | node o l r ihl ihr =>
    obtain ⟨hl, hr, hdiv, hrange⟩ := h
    have hleft : l.eval (fun n => .ok n.value) Op.apply = .ok (exact l) := ihl hl
    have hright : r.eval (fun n => .ok n.value) Op.apply = .ok (exact r) := ihr hr
    unfold IntExpr.value Expr.eval
    rw [hleft, Except.ok_bind, hright, Except.ok_bind]
    exact Op.apply_ok_iff.mpr ⟨hdiv, rfl, hrange⟩

theorem Fits.inInt {e : IntExpr} (h : Fits e) : InInt (exact e) := value_inInt h.value

end IntExpr

namespace Computer

open IntExpr

/-- What `compute` returns, or the fault it fails with, wherever that happens. -/
def outcome (stack : List String) : Except Fault String := (compute stack).mapError Prod.snd

theorem outcome_eq (stack : List String) :
    outcome stack = ((stack.foldlM step {}).map State.nums >>= fun nums =>
      (pop nums).map fun top => toString top.1) := by
  unfold outcome compute
  rw [← mapError_foldAt step 0]
  rcases foldAt step 0 {} stack with ⟨i, f⟩ | ⟨_ | ⟨num, nums⟩, res⟩ <;> rfl

/-! ## The tokens of an expression -/

theorem foldAt_tokens {e : IntExpr} (h : Fits e) (i : Nat) (st : State) :
    ∃ st', foldAt step i st e.tokens = .ok st' ∧ st'.nums = exact e :: st.nums := by
  obtain ⟨st', hnums, hrun⟩ := stackMachine.run_code h.value i st []
  rw [List.append_nil] at hrun
  exact ⟨st', hrun, hnums⟩

theorem step_toString {i : Int} (h : InInt i) (st : State) :
    step st (toString i) = .ok { st with nums := i :: st.nums } := by
  rw [step_numeral (startsNumeral_toString i), lexicalCast_toString h]
  rfl

theorem step_text (n : IntNumeral) (st : State) :
    step st n.text = .ok { st with nums := n.value :: st.nums } := by
  rw [step_numeral n.starts, n.reads]
  rfl

/-! ## The tokens behind it -/

/-- The first token that is no numeral, if there is one, is an operator. -/
def OperatorNext : List String → Prop
  | [] => True
  | pos :: rest => if startsNumeral pos then OperatorNext rest else isOp pos = true

theorem step_name_res (o : Op) (nums : List Int) (res res' : Int) :
    step ⟨nums, res⟩ o.name = step ⟨nums, res'⟩ o.name := by
  rcases nums with _ | ⟨arg1, _ | ⟨arg2, nums⟩⟩
  · rw [step_name_few o (by simp), step_name_few o (by simp)]
  · rw [step_name_few o (by simp), step_name_few o (by simp)]
  · rw [step_name_two, step_name_two]

theorem foldlM_res {after : List String} (h : OperatorNext after) (nums : List Int) (res res' : Int) :
    (after.foldlM step ⟨nums, res⟩).map State.nums = (after.foldlM step ⟨nums, res'⟩).map State.nums := by
  induction after generalizing nums with
  | nil => rfl
  | cons pos rest ih =>
    unfold OperatorNext at h
    rw [List.foldlM_cons, List.foldlM_cons]
    split at h
    · rename_i hnum
      rw [step_numeral hnum, step_numeral hnum]
      cases lexicalCast pos with
      | error f => rfl
      | ok num => exact ih h (num :: nums)
    · obtain ⟨o, rfl⟩ := (isOp_iff pos).mp h
      rw [step_name_res o nums res res']

/-- **The loop evaluates compositionally.** On any stack it pushes the value of an expression,
whatever comes after. The tokens of an expression may be replaced by the numeral of its value,
unless the next token that is no numeral is no operator either: that would push the last result. -/
theorem computes_compositionally {e : IntExpr} (h : Fits e) :
    (∀ i st, ∃ st', foldAt step i st e.tokens = .ok st' ∧ st'.nums = exact e :: st.nums ∧
      ∀ rest, foldAt step i st (e.tokens ++ rest) = foldAt step (i + e.tokens.length) st' rest) ∧
    ∀ before after, (∃ n, e = .leaf n) ∨ OperatorNext after →
      outcome (before ++ e.tokens ++ after) = outcome (before ++ [toString (exact e)] ++ after) := by
  constructor
  · intro i st
    obtain ⟨st', hrun, hnums⟩ := foldAt_tokens h i st
    exact ⟨st', hrun, hnums, fun rest => foldAt_append_ok hrun rest⟩
  · intro before after hafter
    rw [outcome_eq, outcome_eq]
    congr 1
    rw [List.append_assoc, List.append_assoc, List.foldlM_append, List.foldlM_append]
    cases before.foldlM step {} with
    | error f => rfl
    | ok st =>
      rw [Except.ok_bind, Except.ok_bind, List.foldlM_append, List.singleton_append, List.foldlM_cons,
        step_toString h.inInt, Except.ok_bind]
      rcases hafter with ⟨n, rfl⟩ | hnext
      · have hone : (IntExpr.tokens (.leaf n)).foldlM step st = .ok { st with nums := n.value :: st.nums } := by
          unfold IntExpr.tokens Expr.code
          rw [List.foldlM_cons, step_text]
          rfl
        rw [hone]
        rfl
      · obtain ⟨st', hrun, hnums⟩ := foldAt_tokens h 0 st
        have hfold : e.tokens.foldlM step st = .ok st' := by
          rw [← mapError_foldAt step 0, hrun]
          rfl
        obtain ⟨nums, res⟩ := st'
        simp only at hnums
        subst hnums
        rw [hfold, Except.ok_bind]
        exact foldlM_res hnext _ _ _

/-- `-7 / 2 + 4`, of which the quotient is replaced by `-3`. -/
theorem computes_compositionally_quotient :
    outcome (["-7", "2", "DIVIDE"] ++ ["4", "ADD"]) = outcome (["-3"] ++ ["4", "ADD"]) := by
  have hnext : OperatorNext ["4", "ADD"] := by simp [OperatorNext, isOp, startsNumeral, firstChar]
  obtain ⟨-, hreplace⟩ := computes_compositionally
    (e := .node .divide (.leaf (.ofInt (-7) (by decide))) (.leaf (.ofInt 2 (by decide)))) (by decide)
  exact hreplace [] ["4", "ADD"] (Or.inr hnext)

/-- `1 2 ADD N` gives 3, and `3 N` gives 0: the null mark repeats the last result. -/
theorem replacing_fails :
    ¬ ∀ e : IntExpr, Fits e → ∀ before after,
      outcome (before ++ e.tokens ++ after) = outcome (before ++ [toString (exact e)] ++ after) := by
  intro h
  have hsum := h (.node .add (.leaf (.ofInt 1 (by decide))) (.leaf (.ofInt 2 (by decide)))) (by decide)
    [] ["N"]
  have hlong : outcome ["1", "2", "ADD", "N"] = .ok "3" := by decide
  have hshort : outcome ["3", "N"] = .ok "0" := by decide
  have hequal : outcome ["1", "2", "ADD", "N"] = outcome ["3", "N"] := hsum
  rw [hlong, hshort] at hequal
  exact absurd hequal (by decide)

end Computer

end DispCalc
