import DispCalc.Parser.Grammar

/-!
# The grammar with any actions

The rules of `Parser` with other actions in the places of its own, and what each of them does
by the first character after the blanks.
-/

open Recognizer

namespace DispCalc.Parser

structure Actions (σ ε : Type) where
  doInt : List Char → σ → Except ε σ
  doOp : Op → σ → Except ε σ
  doNeg : σ → Except ε σ
  unfinished : ε

variable {σ ε : Type}

namespace Actions

/-! ## Rules -/

section Rules

variable (A : Actions σ ε)

def step (l : Level) (operand : Recognizer.Rule Char σ ε) : Recognizer.Rule Char σ ε :=
  match l with
  | .sum => alt (action (seq (ch isSpace '+') operand) (A.doOp .add))
      (action (seq (ch isSpace '-') operand) (A.doOp .subtract))
  | .product => alt (action (seq (ch isSpace '*') operand) (A.doOp .multiply))
      (action (seq (ch isSpace '/') operand) (A.doOp .divide))

/-- The repetition in a chain. -/
def more (l : Level) (operand : Recognizer.Rule Char σ ε) : Recognizer.Rule Char σ ε :=
  star (A.step l operand)

/-- The rule of a chain: `expression` or `term`. -/
def rule (l : Level) (operand : Recognizer.Rule Char σ ε) : Recognizer.Rule Char σ ε :=
  seq operand (A.more l operand)

def term (factor : Recognizer.Rule Char σ ε) : Recognizer.Rule Char σ ε := A.rule .product factor

def expression (factor : Recognizer.Rule Char σ ε) : Recognizer.Rule Char σ ε :=
  A.rule .sum (A.term factor)

def factorOf (factor : Recognizer.Rule Char σ ε) : Recognizer.Rule Char σ ε :=
  alt (lexeme isSpace Char.isDigit A.doInt) <|
  alt (seq (ch isSpace '(') (seq (A.expression factor) (ch isSpace ')'))) <|
  alt (action (seq (ch isSpace '-') factor) A.doNeg) <|
  seq (ch isSpace '+') factor

def factorWithin : Nat → Recognizer.Rule Char σ ε
  | 0 => fun _ _ => .error A.unfinished
  | depth + 1 => A.factorOf (factorWithin depth)

def factor : Recognizer.Rule Char σ ε := fun i st => A.factorWithin (i.length + 1) i st

def parse (s : String) (st : σ) : Outcome Char σ ε := A.expression A.factor (cStr s) st

end Rules

/-- The actions of the source, which write to `__expressionStack`. -/
def source : Actions (List String) Fault := ⟨Parser.doInt, pushOp, Parser.doNeg, .unfinished⟩

theorem source_factorWithin (depth : Nat) :
    source.factorWithin depth = Parser.factorWithin depth := by
  induction depth with
  | zero => rfl
  | succ depth ih =>
    rw [factorWithin, ih]
    rfl

theorem source_factor : source.factor = Parser.factor := by
  funext i st
  exact congrFun (congrFun (source_factorWithin (i.length + 1)) i) st

theorem source_parse : source.parse = Parser.parse := by
  funext s st
  unfold parse
  rw [source_factor]
  rfl

/-! ## The recursion of the grammar -/

variable {A : Actions σ ε}

theorem consumes_step {operand : Recognizer.Rule Char σ ε} (h : Consumes operand) (l : Level) :
    Consumes (A.step l operand) := by
  have hstep : ∀ c f, Consumes (action (seq (ch isSpace c) operand) f) := fun c f =>
    consumes_action (consumes_seq (consumes_ch isSpace c) h.notLonger) f
  cases l
  · exact consumes_alt (hstep _ _) (hstep _ _)
  · exact consumes_alt (hstep _ _) (hstep _ _)

theorem consumes_rule {operand : Recognizer.Rule Char σ ε} (h : Consumes operand) (l : Level) :
    Consumes (A.rule l operand) := consumes_seq h (notLonger_star (consumes_step h l))

theorem consumes_factorWithin (depth : Nat) : Consumes (A.factorWithin depth) := by
  induction depth with
  | zero =>
    intro i s s' r h
    cases h
  | succ depth ih =>
    have hexpression : Consumes (A.expression (A.factorWithin depth)) :=
      consumes_rule (consumes_rule ih .product) .sum
    refine consumes_alt (consumes_lexeme isSpace _ _) (consumes_alt ?_ (consumes_alt ?_ ?_))
    · exact consumes_seq (consumes_ch isSpace '(')
        (consumes_seq hexpression (consumes_ch isSpace ')').notLonger).notLonger
    · exact consumes_action (consumes_seq (consumes_ch isSpace '-') ih.notLonger) A.doNeg
    · exact consumes_seq (consumes_ch isSpace '+') ih.notLonger

theorem consumes_factor : Consumes A.factor := fun i => consumes_factorWithin (i.length + 1) i

theorem agree_rule {n : Nat} {p q : Recognizer.Rule Char σ ε} (h : AgreeBelow n p q) (hp : Consumes p)
    (l : Level) : AgreeBelow n (A.rule l p) (A.rule l q) := by
  have hstep : ∀ c f, AgreeBelow n (action (seq (ch isSpace c) p) f)
      (action (seq (ch isSpace c) q) f) := fun c f =>
    (agree_action (agree_ch_seq isSpace c h) f).of_le (Nat.le_succ n)
  have halt : AgreeBelow n (A.step l p) (A.step l q) := by
    cases l
    · exact agree_alt (hstep _ _) (hstep _ _)
    · exact agree_alt (hstep _ _) (hstep _ _)
  exact agree_seq h (agree_star halt (consumes_step hp l)) hp.notLonger

theorem agree_expression {n : Nat} {p q : Recognizer.Rule Char σ ε} (h : AgreeBelow n p q)
    (hp : Consumes p) : AgreeBelow n (A.expression p) (A.expression q) :=
  agree_rule (agree_rule h hp .product) (consumes_rule hp .product) .sum

theorem agree_factorOf {n : Nat} {p q : Recognizer.Rule Char σ ε} (h : AgreeBelow n p q)
    (hp : Consumes p) : AgreeBelow (n + 1) (A.factorOf p) (A.factorOf q) := by
  refine agree_alt (AgreeBelow.refl _ _) (agree_alt ?_ (agree_alt ?_ ?_))
  · exact agree_ch_seq isSpace '(' (agree_seq (agree_expression h hp) (AgreeBelow.refl _ _)
      (consumes_rule (consumes_rule hp .product) .sum).notLonger)
  · exact agree_action (agree_ch_seq isSpace '-' h) A.doNeg
  · exact agree_ch_seq isSpace '+' h

theorem agree_factorWithin (m n : Nat) :
    AgreeBelow (min m n) (A.factorWithin m) (A.factorWithin n) := by
  induction m generalizing n with
  | zero =>
    intro i s hi
    simp at hi
  | succ m ih =>
    rcases n with _ | n
    · intro i s hi
      simp at hi
    · rw [Nat.succ_min_succ]
      exact agree_factorOf (ih n) (consumes_factorWithin m)

theorem factor_eq : A.factor = A.factorOf A.factor := by
  funext i st
  have hbelow : AgreeBelow i.length (A.factorWithin i.length) A.factor := fun j s hj =>
    agree_factorWithin i.length (j.length + 1) j s (by omega)
  exact agree_factorOf hbelow (consumes_factorWithin i.length) i st (Nat.lt_succ_self _)

end Actions

/-! ## Chains -/

theorem action_ch_nil {i : List Char} (hskip : skip isSpace i = []) (c : Char) (p : Recognizer.Rule Char σ ε)
    (f : σ → Except ε σ) (st : σ) :
    action (seq (ch isSpace c) p) f i st = .ok (st, none) :=
  action_none (seq_none (ch_nil hskip c st)) f

theorem action_ch_ne {i r : List Char} {x c : Char} (hskip : skip isSpace i = x :: r) (hne : x ≠ c)
    (p : Recognizer.Rule Char σ ε) (f : σ → Except ε σ) (st : σ) :
    action (seq (ch isSpace c) p) f i st = .ok (st, none) :=
  action_none (seq_none (by rw [ch_cons hskip, if_neg hne])) f

theorem action_ch_eq {i r : List Char} {c : Char} (hskip : skip isSpace i = c :: r) (p : Recognizer.Rule Char σ ε)
    (f : σ → Except ε σ) (st : σ) :
    action (seq (ch isSpace c) p) f i st = action p f r st := by
  have hch : (ch isSpace c : Recognizer.Rule Char σ ε) i st = .ok (st, some r) := by rw [ch_cons hskip, if_pos rfl]
  unfold action
  rw [seq_some hch]

theorem alt_action {c₁ c₂ : Char} (hne : c₁ ≠ c₂) (f₁ f₂ : σ → Except ε σ)
    (operand : Recognizer.Rule Char σ ε) (i : List Char) (st : σ) :
    alt (action (seq (ch isSpace c₁) operand) f₁) (action (seq (ch isSpace c₂) operand) f₂) i st =
      match skip isSpace i with
      | [] => .ok (st, none)
      | c :: r =>
        if c = c₁ then action operand f₁ r st
        else if c = c₂ then action operand f₂ r st
        else .ok (st, none) := by
  rcases hskip : skip isSpace i with _ | ⟨c, r⟩
  · rw [alt_none (action_ch_nil hskip c₁ operand f₁ st), action_ch_nil hskip]
  · by_cases h1 : c = c₁
    · subst h1
      simp only [if_true]
      rw [alt_left (action_ch_ne hskip hne operand f₂), action_ch_eq hskip]
    · rw [alt_none (action_ch_ne hskip h1 operand f₁ st)]
      by_cases h2 : c = c₂
      · subst h2
        simp only [if_neg h1, if_true]
        exact action_ch_eq hskip operand f₂ st
      · simp only [if_neg h1, if_neg h2]
        exact action_ch_ne hskip h2 operand f₂ st

namespace Actions

variable {A : Actions σ ε}

theorem step_eq (l : Level) (operand : Recognizer.Rule Char σ ε) (i : List Char) (st : σ) :
    A.step l operand i st =
      match skip isSpace i with
      | [] => .ok (st, none)
      | c :: r =>
        match l.op c with
        | none => .ok (st, none)
        | some o => action operand (A.doOp o) r st := by
  cases l with
  | sum =>
    refine (alt_action (by decide : '+' ≠ '-') (A.doOp .add) (A.doOp .subtract) operand i st).trans ?_
    rcases skip isSpace i with _ | ⟨c, r⟩
    · rfl
    · by_cases h1 : c = '+'
      · subst h1
        rfl
      · by_cases h2 : c = '-'
        · subst h2
          rfl
        · simp [h1, h2, Level.op]
  | product =>
    refine (alt_action (by decide : '*' ≠ '/') (A.doOp .multiply) (A.doOp .divide) operand i st).trans ?_
    rcases skip isSpace i with _ | ⟨c, r⟩
    · rfl
    · by_cases h1 : c = '*'
      · subst h1
        rfl
      · by_cases h2 : c = '/'
        · subst h2
          rfl
        · simp [h1, h2, Level.op]

theorem more_stop {operand : Recognizer.Rule Char σ ε} (h : Consumes operand) {l : Level}
    {i : List Char} (hstop : l.Ends i) (st : σ) : A.more l operand i st = .ok (st, some i) := by
  rw [more, star_eq (consumes_step h l), step_eq]
  rcases hskip : skip isSpace i with _ | ⟨c, r⟩
  · rfl
  · simp only [hstop c r hskip, followed_none]

theorem more_next {operand : Recognizer.Rule Char σ ε} (h : Consumes operand) {l : Level}
    {i r : List Char} {c : Char} {o : Op} (hskip : skip isSpace i = c :: r) (hc : l.op c = some o)
    (st : σ) :
    A.more l operand i st = followed (action operand (A.doOp o) r st)
      (fun st => .ok (st, some i)) (A.more l operand) := by
  rw [more, star_eq (consumes_step h l), step_eq, hskip]
  simp only [hc]

/-! ## Factors -/

theorem lexeme_cons {i r : List Char} {c : Char} (hskip : skip isSpace i = c :: r) (st : σ) :
    lexeme isSpace Char.isDigit A.doInt i st =
      if c.isDigit = true then
        (A.doInt ((c :: r).takeWhile Char.isDigit) st).map fun st =>
          (st, some ((c :: r).dropWhile Char.isDigit))
      else .ok (st, none) := by
  unfold lexeme
  rw [hskip]
  by_cases hd : c.isDigit = true
  · rw [if_pos hd, List.takeWhile_cons_of_pos hd]
    simp only
    cases A.doInt (c :: r.takeWhile Char.isDigit) st <;> rfl
  · rw [if_neg hd, List.takeWhile_cons_of_neg hd]

theorem lexeme_nil {i : List Char} (hskip : skip isSpace i = []) (st : σ) :
    lexeme isSpace Char.isDigit A.doInt i st = .ok (st, none) := by
  unfold lexeme
  rw [hskip]
  rfl

theorem factor_nil {i : List Char} (hskip : skip isSpace i = []) (st : σ) :
    A.factor i st = .ok (st, none) := by
  rw [factor_eq, factorOf, alt_none (lexeme_nil hskip st),
    alt_none (seq_none (ch_nil hskip _ st)), alt_none (action_ch_nil hskip _ _ _ st),
    seq_none (ch_nil hskip _ st)]

theorem factor_cons {i r : List Char} {c : Char} (hskip : skip isSpace i = c :: r) (st : σ) :
    A.factor i st =
      if c.isDigit = true then
        (A.doInt ((c :: r).takeWhile Char.isDigit) st).map fun st =>
          (st, some ((c :: r).dropWhile Char.isDigit))
      else if c = '(' then seq (A.expression A.factor) (ch isSpace ')') r st
      else if c = '-' then action A.factor A.doNeg r st
      else if c = '+' then A.factor r st
      else .ok (st, none) := by
  have hch : ∀ {d : Char} (p : Recognizer.Rule Char σ ε) (st : σ), c ≠ d →
      seq (ch isSpace d) p i st = .ok (st, none) := fun p st hne =>
    seq_none (by rw [ch_cons hskip, if_neg hne])
  have hch' : ∀ (p : Recognizer.Rule Char σ ε) (st : σ), seq (ch isSpace c) p i st = p r st :=
    fun p st => seq_some (by rw [ch_cons hskip, if_pos rfl])
  have hlex := lexeme_cons (A := A) hskip st
  conv_lhs => rw [factor_eq, factorOf]
  by_cases hd : c.isDigit = true
  · rw [if_pos hd] at hlex ⊢
    unfold alt
    rw [hlex]
    cases A.doInt ((c :: r).takeWhile Char.isDigit) st <;> rfl
  rw [if_neg hd] at hlex ⊢
  rw [alt_none hlex]
  by_cases h1 : c = '('
  · subst h1
    rw [if_pos rfl, alt_left (q := alt _ _) fun t => ?_, hch']
    rw [alt_none (action_none (hch A.factor t (by decide)) A.doNeg), hch A.factor t (by decide)]
  rw [if_neg h1, alt_none (hch _ st h1)]
  by_cases h2 : c = '-'
  · subst h2
    rw [if_pos rfl, alt_left fun t => hch A.factor t (by decide), action_ch_eq hskip]
  rw [if_neg h2, alt_none (action_none (hch A.factor st h2) A.doNeg)]
  by_cases h3 : c = '+'
  · subst h3
    rw [if_pos rfl, hch']
  · rw [if_neg h3, hch A.factor st h3]

end Actions

end DispCalc.Parser
