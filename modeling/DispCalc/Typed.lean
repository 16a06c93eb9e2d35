import DispCalc.Computer
import DispCalc.Parser.Exact
import Mathlib.Data.List.Forall2
import Mathlib.Data.List.TakeWhile

/-!
# What was typed

The postfix form and the value of a sentence, and the list that `parse` makes of it.
-/

open Postfix Recognizer DispCalc.Parser

namespace DispCalc

inductive Token where
  | num (v : Int)
  | op (o : Op)
  deriving DecidableEq, Repr

namespace Parser.Ast

/-- The postfix form of a parse tree. A plus sign is dropped and a minus sign folded into the
literal it applies to; a minus sign before anything else makes its action throw. -/
def postfixForm : Ast → List Token
  | .lit d => [.num (digitsValue d.chars)]
  | .neg a =>
    match a.postfixForm with
    | [.num v] => [.num (-v)]
    | ts => ts
  | .pos a => a.postfixForm
  | .bin o l r => l.postfixForm ++ r.postfixForm ++ [.op o]

/-- The integer that was typed. -/
def value : Ast → Int
  | .lit d => digitsValue d.chars
  | .neg a => -a.value
  | .pos a => a.value
  | .bin o l r => o.exact l.value r.value

/-- No literal or intermediate result leaves `int`, and no divisor is zero. -/
def Fits : Ast → Prop
  | .lit d => InInt (digitsValue d.chars)
  | .neg a => a.Fits ∧ InInt (-a.value)
  | .pos a => a.Fits
  | .bin o l r => l.Fits ∧ r.Fits ∧ (o = .divide → r.value ≠ 0) ∧ InInt (o.exact l.value r.value)

end Parser.Ast

def Spells (text : String) : Token → Prop
  | .num v => startsNumeral text = true ∧ numeral? text = some v
  | .op o => text = o.name

theorem negate_ok {e e' : NumExpr} (h : negate e = .ok e') :
    ∃ n v, e = .leaf n ∧ lexicalCast n.text = .ok v ∧ InInt (-v) ∧ e' = .leaf (.ofInt (-v)) := by
  rcases e with n | ⟨o, l, r⟩
  · unfold negate at h
    obtain ⟨v, hv, h⟩ := Except.bind_eq_ok.mp h
    obtain ⟨x, hx, h⟩ := Except.bind_eq_ok.mp h
    obtain ⟨rfl, hi⟩ := checkInt_ok hx
    rw [Int.neg_one_mul] at h hi
    exact ⟨n, v, rfl, hv, hi, (Except.ok.inj h).symm⟩
  · cases h

theorem bin_fold_ok {o : Op} {l r : Ast} {e : NumExpr} (h : (Ast.bin o l r).fold = .ok e) :
    ∃ x y, l.fold = .ok x ∧ r.fold = .ok y ∧ e = .node o x y := by
  unfold Ast.fold at h
  obtain ⟨x, hl, h⟩ := Except.bind_eq_ok.mp h
  obtain ⟨y, hr, h⟩ := Except.bind_eq_ok.mp h
  exact ⟨x, y, hl, hr, (Except.ok.inj h).symm⟩

theorem neg_fold_ok {a : Ast} {e : NumExpr} (h : (Ast.neg a).fold = .ok e) :
    ∃ e', a.fold = .ok e' ∧ negate e' = .ok e := by
  unfold Ast.fold at h
  exact Except.bind_eq_ok.mp h

theorem spells_postfixForm {a : Ast} {e : NumExpr} (h : a.fold = .ok e) :
    List.Forall₂ Spells e.tokens a.postfixForm := by
  induction a generalizing e with
  | lit d =>
    cases h
    exact .cons ⟨startsNumeral_digits d.digits, numeral?_digits d.digits⟩ .nil
  | neg a ih =>
    obtain ⟨e', he', hneg⟩ := neg_fold_ok h
    obtain ⟨n, v, rfl, hv, -, rfl⟩ := negate_ok hneg
    have hspells := ih he'
    rcases hpost : a.postfixForm with _ | ⟨v' | o, _ | ⟨t, ts⟩⟩
    · rw [hpost] at hspells
      cases hspells
    · rw [hpost, tokens_leaf] at hspells
      obtain ⟨⟨-, hnum⟩, -⟩ := List.forall₂_cons.mp hspells
      obtain rfl : v' = v := Option.some.inj (hnum.symm.trans (lexicalCast_ok hv).1)
      simp only [Ast.postfixForm, hpost]
      exact .cons ⟨startsNumeral_toString _, numeral?_toString _⟩ .nil
    · rw [hpost, tokens_leaf] at hspells
      cases (List.forall₂_cons.mp hspells).2
    · rw [hpost, tokens_leaf] at hspells
      have hname : n.text = o.name := (List.forall₂_cons.mp hspells).1
      have := n.starts
      simp [hname] at this
    · rw [hpost, tokens_leaf] at hspells
      cases (List.forall₂_cons.mp hspells).2
  | pos a ih => exact ih h
  | bin o l r ihl ihr =>
    obtain ⟨x, y, hx, hy, rfl⟩ := bin_fold_ok h
    rw [tokens_node]
    exact List.rel_append (List.rel_append (ihl hx) (ihr hy)) (.cons rfl .nil)

theorem exists_intExpr {a : Ast} {e : NumExpr} (h : a.fold = .ok e) (hfits : a.Fits) :
    ∃ e' : IntExpr, e'.tokens = e.tokens ∧ e'.value = .ok a.value := by
  induction a generalizing e with
  | lit d =>
    cases h
    exact ⟨.leaf ⟨String.ofList d.chars, digitsValue d.chars, startsNumeral_digits d.digits,
      lexicalCast_of_numeral (numeral?_digits d.digits) hfits⟩, rfl, rfl⟩
  | neg a ih =>
    obtain ⟨e', he', hneg⟩ := neg_fold_ok h
    obtain ⟨n, v, rfl, hv, hi, rfl⟩ := negate_ok hneg
    obtain ⟨e', htokens, hvalue⟩ := ih he' hfits.1
    rcases e' with m | ⟨o, l, r⟩
    · have htext : m.text = n.text := by simpa [IntExpr.tokens, Expr.code, tokens_leaf] using htokens
      have hm : m.value = v := by simpa [htext, hv] using m.reads.symm
      have hval : m.value = a.value := Except.ok.inj hvalue
      refine ⟨.leaf (.ofInt (-v) hi), rfl, ?_⟩
      change Except.ok (-v) = Except.ok (-a.value)
      rw [← hm, hval]
    · have hlen := congrArg List.length htokens
      have := List.length_pos_iff.mpr (Expr.code_ne_nil IntNumeral.text Op.name l)
      simp only [IntExpr.tokens, Expr.code, tokens_leaf, List.length_append, List.length_cons,
        List.length_nil] at hlen
      omega
  | pos a ih => exact ih h hfits
  | bin o l r ihl ihr =>
    obtain ⟨x, y, hx, hy, rfl⟩ := bin_fold_ok h
    obtain ⟨l', hl', hlv⟩ := ihl hx hfits.1
    obtain ⟨r', hr', hrv⟩ := ihr hy hfits.2.1
    refine ⟨.node o l' r', ?_, ?_⟩
    · rw [tokens_node, ← hl', ← hr']
      rfl
    · rw [IntExpr.value] at hlv hrv ⊢
      simp only [Expr.eval, hlv, hrv]
      exact Op.apply_ok_iff.mpr ⟨hfits.2.2.1, rfl, hfits.2.2.2⟩

/-! ## The list of a sentence -/

theorem blank_quiet {ws : List Char} (h : Blank ws) : (Sym.chain .sum).Quiet ws := by
  have hskip : skip isSpace ws = [] := List.dropWhile_eq_nil_iff.mpr h
  have hends : ∀ l : Level, l.Ends ws := fun l c r hc => by simp [hskip] at hc
  refine ⟨fun c hc => ?_, fun _ => hends _, hends _⟩
  by_contra hd
  have := h c (List.mem_of_mem_head? hc)
  simp [isSpace_digit (by simpa using hd)] at this

theorem parse_sentence {s : String} {a : Ast} (h : Sentence s a) (st : List String) :
    ∃ ws, parse s st = reading a st ws := by
  obtain ⟨w, ws, hs, hw, hws⟩ := h
  refine ⟨ws, ?_⟩
  rw [parse, hs]
  exact hw.exact ws st (blank_quiet hws)

/-- The list is the postfix form of the parse tree, and `Computer` makes of it the decimal text
of what was typed. -/
def Denotes (a : Ast) (s : List String) : Prop :=
  List.Forall₂ Spells s a.postfixForm ∧ (a.Fits → Computer.compute s = .ok (toString a.value))

theorem denotes_tokens {a : Ast} {e : NumExpr} (h : a.fold = .ok e) : Denotes a e.tokens := by
  refine ⟨spells_postfixForm h, fun hfits => ?_⟩
  obtain ⟨e', htokens, hvalue⟩ := exists_intExpr h hfits
  rw [← htokens]
  exact Computer.compute_tokens hvalue

def one : Ast := .lit ⟨['1'], rfl⟩

/-- `1 - -2`. -/
def difference : Ast := .bin .subtract one (.neg (.lit ⟨['2'], rfl⟩))

theorem sentence_difference : Sentence "1 - -2" difference := by
  have hblank : Blank [' '] := by simp [Blank, isSpace]
  have h1 : Derives .factor ([] ++ ['1']) one := .lit blank_nil ⟨['1'], rfl⟩
  have h2 : Derives .factor ([' '] ++ '-' :: ([] ++ ['2'])) (.neg (.lit ⟨['2'], rfl⟩)) :=
    .neg hblank (.lit blank_nil ⟨['2'], rfl⟩)
  have hterm : ∀ {w a}, Derives .factor w a → Derives (.chain .product) (w ++ []) a :=
    fun h => .chain (l := .product) h .stop
  exact ⟨_, [], rfl, .chain (l := .sum) (hterm h1)
    (.next (l := .sum) (c := '-') hblank rfl (hterm h2) .stop), blank_nil⟩

end DispCalc
