import DispCalc.Lib.Postfix
import DispCalc.Parser.Code

/-!
# The language of the grammar

Which texts the rules of `Parser` describe, with their parse trees, and which postfix
expression the actions make of a tree. Nothing here runs a rule.
-/

open Postfix Recognizer

namespace DispCalc.Parser

/-! ## Parse trees -/

structure Digits where
  chars : List Char
  digits : isDigits chars = true

inductive Ast where
  | lit (d : Digits)
  | neg (a : Ast)
  | pos (a : Ast)
  | bin (o : Op) (l r : Ast)

/-- `expression` is a chain of sums, `term` a chain of products. -/
inductive Level where
  | sum
  | product

def Level.op : Level → Char → Option Op
  | .sum, '+' => some .add
  | .sum, '-' => some .subtract
  | .product, '*' => some .multiply
  | .product, '/' => some .divide
  | _, _ => none

/-- `tail l a` is what may follow the operands of the chain that `a` stands for. -/
inductive Sym where
  | factor
  | chain (l : Level)
  | tail (l : Level) (a : Ast)

def Level.operand : Level → Sym
  | .sum => .chain .product
  | .product => .factor

def Blank (ws : List Char) : Prop := ∀ c ∈ ws, isSpace c = true

theorem blank_nil : Blank [] := fun _ h => absurd h List.not_mem_nil

/-- The text is one of the symbol, with the parse tree. Blanks may stand before each token. -/
inductive Derives : Sym → List Char → Ast → Prop where
  | lit {ws : List Char} (hws : Blank ws) (d : Digits) : Derives .factor (ws ++ d.chars) (.lit d)
  | paren {ws vs w : List Char} {a : Ast} (hws : Blank ws) (hvs : Blank vs)
      (h : Derives (.chain .sum) w a) : Derives .factor (ws ++ '(' :: (w ++ (vs ++ [')']))) a
  | neg {ws w : List Char} {a : Ast} (hws : Blank ws) (h : Derives .factor w a) :
      Derives .factor (ws ++ '-' :: w) (.neg a)
  | pos {ws w : List Char} {a : Ast} (hws : Blank ws) (h : Derives .factor w a) :
      Derives .factor (ws ++ '+' :: w) (.pos a)
  | chain {l : Level} {w v : List Char} {a b : Ast} (h : Derives l.operand w a)
      (htail : Derives (.tail l a) v b) : Derives (.chain l) (w ++ v) b
  | stop {l : Level} {a : Ast} : Derives (.tail l a) [] a
  | next {l : Level} {a b b' : Ast} {ws w v : List Char} {c : Char} {o : Op} (hws : Blank ws)
      (hc : l.op c = some o) (h : Derives l.operand w b)
      (htail : Derives (.tail l (.bin o a b)) v b') :
      Derives (.tail l a) (ws ++ c :: (w ++ v)) b'

/-- The string is a sentence of the grammar: an expression, with blanks allowed after it. -/
def Sentence (s : String) (a : Ast) : Prop :=
  ∃ w ws, cStr s = w ++ ws ∧ Derives (.chain .sum) w a ∧ Blank ws

/-- What is left of a text after the longest expression at its beginning. -/
def LeftOver (i r : List Char) : Prop :=
  (∃ w a, i = w ++ r ∧ Derives (.chain .sum) w a) ∧
    ∀ w r' a, i = w ++ r' → Derives (.chain .sum) w a → r.length ≤ r'.length

theorem LeftOver.unique {i r r' : List Char} (h : LeftOver i r) (h' : LeftOver i r') : r = r' := by
  obtain ⟨⟨w, a, hi, hw⟩, hmin⟩ := h
  obtain ⟨⟨w', a', hi', hw'⟩, hmin'⟩ := h'
  have hle := hmin w' r' a' hi' hw'
  have hle' := hmin' w r a hi hw
  exact List.append_inj_right' (hi ▸ hi') (by omega)

/-! ## Postfix expressions -/

/-- A decimal text, with or without a minus sign, and its value. -/
structure Numeral where
  text : String
  value : Int
  starts : startsNumeral text = true
  reads : numeral? text = some value

def Numeral.ofDigits (d : Digits) : Numeral :=
  ⟨String.ofList d.chars, digitsValue d.chars, startsNumeral_digits d.digits,
    numeral?_digits d.digits⟩

def Numeral.ofInt (i : Int) : Numeral :=
  ⟨toString i, i, startsNumeral_toString i, numeral?_toString i⟩

abbrev NumExpr := Expr Numeral Op

def NumExpr.tokens (e : NumExpr) : List String := e.code Numeral.text Op.name

/-- A minus sign is folded into a numeral; on anything else the cast throws. -/
def negate : NumExpr → Except Fault NumExpr
  | .leaf n => do
    let x ← lexicalCast n.text
    let x ← checkInt (-1 * x)
    return .leaf (.ofInt x)
  | .node _ _ _ => .error .badLexicalCast

/-- The expression whose postfix list the actions write for a parse tree. -/
def Ast.fold : Ast → Except Fault NumExpr
  | .lit d => .ok (.leaf (.ofDigits d))
  | .neg a => a.fold >>= negate
  | .pos a => a.fold
  | .bin o l r => do
    let x ← l.fold
    let y ← r.fold
    return .node o x y

theorem fold_bin {a b : Ast} {e e' : NumExpr} (ha : a.fold = .ok e) (hb : b.fold = .ok e') (o : Op) :
    (Ast.bin o a b).fold = .ok (.node o e e') := by
  simp only [Ast.fold, ha, hb]
  rfl

theorem fold_bin_left {a : Ast} {f : Fault} (ha : a.fold = .error f) (o : Op) (b : Ast) :
    (Ast.bin o a b).fold = .error f := by
  simp only [Ast.fold, ha]
  rfl

theorem fold_bin_right {a b : Ast} {e : NumExpr} {f : Fault} (ha : a.fold = .ok e)
    (hb : b.fold = .error f) (o : Op) : (Ast.bin o a b).fold = .error f := by
  simp only [Ast.fold, ha, hb]
  rfl

theorem fold_neg {a : Ast} {e : NumExpr} (ha : a.fold = .ok e) : (Ast.neg a).fold = negate e := by
  simp only [Ast.fold, ha]
  rfl

theorem fold_neg_error {a : Ast} {f : Fault} (ha : a.fold = .error f) :
    (Ast.neg a).fold = .error f := by
  simp only [Ast.fold, ha]
  rfl

/-! ## Beginnings of texts -/

/-- After blanks, signs and opening parentheses there is a digit: a rule that starts here
reads a number, whether it matches in the end or not. -/
def digity (i : List Char) : Bool :=
  match i with
  | [] => false
  | c :: r => c.isDigit || (isSpace c || c == '(' || c == '-' || c == '+') && digity r

/-- After an operator of the level there is a text that starts with a number. -/
def Level.dangling (l : Level) (i : List Char) : Bool :=
  match skip isSpace i with
  | [] => false
  | c :: r => (l.op c).isSome && digity r

/-- An operator follows, and after it a text that starts with a number. -/
def dangling (i : List Char) : Bool := Level.product.dangling i || Level.sum.dangling i

theorem digity_blank {ws : List Char} (h : Blank ws) (i : List Char) : digity (ws ++ i) = digity i := by
  induction ws with
  | nil => rfl
  | cons c ws ih =>
    have hc : isSpace c = true := h c (by simp)
    have hd : c.isDigit = false := by
      by_contra hd
      simp only [isSpace, Bool.or_eq_true, decide_eq_true_eq] at hc
      rcases hc with ((((rfl | rfl) | rfl) | rfl) | rfl) | rfl <;> exact hd (by decide)
    simp only [List.cons_append, digity, hd, hc, Bool.false_or, Bool.true_or, Bool.true_and]
    exact ih fun c hc => h c (List.mem_cons_of_mem _ hc)

theorem isSpace_digit {c : Char} (h : c.isDigit = true) : isSpace c = false := by
  by_contra hc
  simp only [Bool.not_eq_false, isSpace, Bool.or_eq_true, decide_eq_true_eq] at hc
  rcases hc with ((((rfl | rfl) | rfl) | rfl) | rfl) | rfl <;> simp at h

theorem exists_skip (i : List Char) : ∃ ws, Blank ws ∧ i = ws ++ skip isSpace i :=
  ⟨i.takeWhile isSpace, fun c hc => List.all_eq_true.mp List.all_takeWhile c hc,
    List.takeWhile_append_dropWhile.symm⟩

theorem exists_blanks {i r : List Char} {c : Char} (h : skip isSpace i = c :: r) :
    ∃ ws, Blank ws ∧ i = ws ++ c :: r :=
  h ▸ exists_skip i

theorem isSpace_of_skip {i r : List Char} {c : Char} (h : skip isSpace i = c :: r) :
    isSpace c = false := by
  have := List.head?_dropWhile_not isSpace i
  rw [show i.dropWhile isSpace = c :: r from h] at this
  simpa using this

theorem skip_append {ws : List Char} (h : Blank ws) {c : Char} (hc : isSpace c = false)
    (r : List Char) : skip isSpace (ws ++ c :: r) = c :: r := by
  unfold skip
  rw [List.dropWhile_append_of_pos h, List.dropWhile_cons_of_neg (by simp [hc])]

theorem isDigits_takeWhile {c : Char} (h : c.isDigit = true) (r : List Char) :
    isDigits ((c :: r).takeWhile Char.isDigit) = true := by
  simp [isDigits, h]

/-! ## Operators -/

theorem op_cases {l : Level} {c : Char} {o : Op} (h : l.op c = some o) :
    c = '+' ∨ c = '-' ∨ c = '*' ∨ c = '/' := by
  unfold Level.op at h
  split at h <;> simp at h ⊢

theorem isDigit_op {l : Level} {c : Char} {o : Op} (h : l.op c = some o) : c.isDigit = false := by
  rcases op_cases h with rfl | rfl | rfl | rfl <;> rfl

theorem skip_op {ws : List Char} (hws : Blank ws) {l : Level} {c : Char} {o : Op}
    (h : l.op c = some o) (r : List Char) : skip isSpace (ws ++ c :: r) = c :: r := by
  refine skip_append hws ?_ r
  rcases op_cases h with rfl | rfl | rfl | rfl <;> rfl

def Level.Ends (l : Level) (i : List Char) : Prop :=
  ∀ c r, skip isSpace i = c :: r → l.op c = none

theorem Level.exists_op {l : Level} {i : List Char} (h : ¬ l.Ends i) :
    ∃ c r o, skip isSpace i = c :: r ∧ l.op c = some o := by
  unfold Level.Ends at h
  push Not at h
  obtain ⟨c, r, hskip, hc⟩ := h
  obtain ⟨o, ho⟩ := Option.ne_none_iff_exists'.mp hc
  exact ⟨c, r, o, hskip, ho⟩

theorem Level.op_sum_of_product {c : Char} {o : Op} (h : Level.product.op c = some o) :
    Level.sum.op c = none := by
  unfold Level.op at h
  split at h <;> first | rfl | simp_all

/-! ## What may follow a text -/

def NoDigit (r : List Char) : Prop := ∀ c ∈ r.head?, c.isDigit = false

/-- Nothing that could prolong a text of the symbol comes next. -/
def Sym.Quiet : Sym → List Char → Prop
  | .factor, r => NoDigit r
  | .chain l, r | .tail l _, r => NoDigit r ∧ (l = .sum → Level.product.Ends r) ∧ l.Ends r

theorem Sym.Quiet.operand {l : Level} {r : List Char} (h : (Sym.chain l).Quiet r) :
    l.operand.Quiet r := by
  cases l
  · exact ⟨h.1, by simp, h.2.1 rfl⟩
  · exact h.1

theorem noDigit_of_skip {i r : List Char} {c : Char} (h : skip isSpace i = c :: r)
    (hc : c.isDigit = false) : NoDigit i := by
  rcases i with _ | ⟨x, i⟩
  · simp [NoDigit]
  · intro y hy
    obtain rfl : x = y := by simpa using hy
    by_cases hx : isSpace x = true
    · by_contra hd
      simp [isSpace_digit (by simpa using hd)] at hx
    · rw [skip, List.dropWhile_cons_of_neg hx] at h
      simp only [List.cons.injEq] at h
      exact h.1 ▸ hc

theorem Level.quiet_op {l : Level} {i r : List Char} {c : Char} {o : Op}
    (h : skip isSpace i = c :: r) (hc : l.op c = some o) : l.operand.Quiet i := by
  have hno : NoDigit i := noDigit_of_skip h (isDigit_op hc)
  cases l
  · refine ⟨hno, by simp, fun c' r' h' => ?_⟩
    rw [h] at h'
    obtain ⟨rfl, rfl⟩ := List.cons.inj h'
    by_contra hne
    obtain ⟨o', ho'⟩ := Option.ne_none_iff_exists'.mp hne
    simp [Level.op_sum_of_product ho'] at hc
  · exact hno

theorem Derives.tail_quiet {l : Level} {a b : Ast} {v : List Char} (h : Derives (.tail l a) v b)
    {r : List Char} (hr : v = [] → l.operand.Quiet r) : l.operand.Quiet (v ++ r) := by
  cases h with
  | stop => exact hr rfl
  | @next _ _ _ _ ws w v c o hws hc _ _ =>
    rw [List.append_assoc, List.cons_append]
    exact Level.quiet_op (skip_op hws hc _) hc

theorem quiet_paren {vs : List Char} (hvs : Blank vs) (r : List Char) :
    (Sym.chain .sum).Quiet (vs ++ ')' :: r) := by
  have hskip := skip_append hvs (c := ')') rfl r
  have hends : ∀ l : Level, l.Ends (vs ++ ')' :: r) := by
    intro l c r' h
    rw [hskip] at h
    obtain ⟨rfl, rfl⟩ := List.cons.inj h
    cases l <;> rfl
  exact ⟨noDigit_of_skip hskip rfl, fun _ => hends _, hends _⟩

end DispCalc.Parser
