import DispCalc.Parser.AnyActions

/-!
# What one rule does

Each rule by the first character after the blanks, and the actions on postfix lists.
-/

open Postfix Recognizer

namespace DispCalc.Parser

/-! ## Actions on postfix lists -/

theorem tokens_leaf (n : Numeral) : NumExpr.tokens (.leaf n) = [n.text] := rfl

theorem tokens_node (o : Op) (l r : NumExpr) :
    NumExpr.tokens (.node o l r) = NumExpr.tokens l ++ NumExpr.tokens r ++ [o.name] := rfl

theorem tokens_join (st : List String) (o : Op) (l r : NumExpr) :
    st ++ l.tokens ++ r.tokens ++ [o.name] = st ++ NumExpr.tokens (.node o l r) := by
  simp [tokens_node]

theorem doNeg_snoc (st : List String) (x : String) :
    doNeg (st ++ [x]) = do
      let v ← lexicalCast x
      let v ← checkInt (-1 * v)
      return st ++ [toString v] := by
  simp [doNeg]

theorem doNeg_tokens (st : List String) (e : NumExpr) :
    doNeg (st ++ NumExpr.tokens e) = (negate e).map fun e' => st ++ NumExpr.tokens e' := by
  rcases e with n | ⟨o, l, r⟩
  · rw [tokens_leaf, doNeg_snoc, negate]
    rcases lexicalCast n.text with f | v
    · rfl
    · simp only [bind, Except.bind]
      rcases checkInt (-1 * v) with f | v <;> rfl
  · rw [tokens_node, ← List.append_assoc, doNeg_snoc, lexicalCast_name]
    rfl

/-! ## Chains -/

def Level.step (l : Level) (operand : Rule) : Rule :=
  match l with
  | .sum => alt (action (seq (ch isSpace '+') operand) doAdd)
      (action (seq (ch isSpace '-') operand) doSubt)
  | .product => alt (action (seq (ch isSpace '*') operand) doMult)
      (action (seq (ch isSpace '/') operand) doDiv)

/-- The rule of a chain: `expression` or `term`. -/
def Level.rule (l : Level) (operand : Rule) : Rule := seq operand (star (l.step operand))

/-- The repetition in a chain. -/
abbrev Level.more (l : Level) (operand : Rule) : Rule := star (l.step operand)

theorem Level.source_step (l : Level) (operand : Rule) :
    Actions.source.step l operand = l.step operand := by
  cases l
  · rfl
  · rfl

theorem Level.source_more (l : Level) (operand : Rule) :
    Actions.source.more l operand = l.more operand := by
  rw [Actions.more, source_step]

theorem Level.consumes_step (l : Level) {operand : Rule} (h : Consumes operand) :
    Consumes (l.step operand) := by
  rw [← source_step]
  exact Actions.consumes_step h l

theorem Level.more_stop {l : Level} {operand : Rule} (h : Consumes operand) {i : List Char}
    (hstop : l.Ends i) (st : List String) :
    l.more operand i st = .ok (st, some i) := by
  rw [← source_more]
  exact Actions.more_stop h hstop st

theorem Level.more_next {l : Level} {operand : Rule} (h : Consumes operand) {i r : List Char}
    {c : Char} {o : Op} (hskip : skip isSpace i = c :: r) (hc : l.op c = some o) (st : List String) :
    l.more operand i st = followed (operand r st) (fun st => .ok (st, some i))
      fun r st => l.more operand r (st ++ [o.name]) := by
  rw [← source_more, Actions.more_next h hskip hc]
  rcases outcome_cases (operand r st) with ⟨e, hx⟩ | ⟨t, hx⟩ | ⟨t, r', hx⟩
  · rw [action_error hx, hx, followed_error, followed_error]
  · rw [action_none hx, hx, followed_none, followed_none]
  · rw [action_some hx, hx]
    rfl

/-! ## Factors -/

theorem consumes_factor : Consumes factor := by
  rw [← Actions.source_factor]
  exact Actions.consumes_factor

theorem consumes_term : Consumes (term factor) := by
  rw [← Actions.source_factor]
  exact Actions.consumes_rule (A := .source) Actions.consumes_factor .product

theorem factor_nil {i : List Char} (hskip : skip isSpace i = []) (st : List String) :
    factor i st = .ok (st, none) := by
  rw [← Actions.source_factor]
  exact Actions.factor_nil hskip st

theorem factor_cons {i r : List Char} {c : Char} (hskip : skip isSpace i = c :: r)
    (st : List String) :
    factor i st =
      if c.isDigit = true then .ok (st ++ [String.ofList ((c :: r).takeWhile Char.isDigit)],
        some ((c :: r).dropWhile Char.isDigit))
      else if c = '(' then seq (expression factor) (ch isSpace ')') r st
      else if c = '-' then action factor doNeg r st
      else if c = '+' then factor r st
      else .ok (st, none) := by
  rw [← Actions.source_factor]
  exact Actions.factor_cons hskip st

end DispCalc.Parser
