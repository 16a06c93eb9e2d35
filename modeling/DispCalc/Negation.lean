import DispCalc.Lib.Results
import DispCalc.Sentences

/-!
# Unary minus

`do_neg` rewrites the last token. That negates the factor behind a minus sign when the factor
is one numeral with signs and parentheses around it; on any other the cast of an operator throws.
-/

open Postfix Recognizer DispCalc.Parser

namespace DispCalc

namespace Parser.Ast

/-- The factors that a minus sign stands before. -/
def negs : Ast → List Ast
  | .lit _ => []
  | .neg a => a :: a.negs
  | .pos a => a.negs
  | .bin _ l r => l.negs ++ r.negs

def LiteralsFit : Ast → Prop
  | .lit d => digitsValue d.chars ≤ 2147483647
  | .neg a => a.LiteralsFit
  | .pos a => a.LiteralsFit
  | .bin _ l r => l.LiteralsFit ∧ r.LiteralsFit

def decLiteralsFit : (a : Ast) → Decidable a.LiteralsFit
  | .lit d => inferInstanceAs (Decidable (digitsValue d.chars ≤ 2147483647))
  | .neg a => decLiteralsFit a
  | .pos a => decLiteralsFit a
  | .bin _ l r => @instDecidableAnd _ _ (decLiteralsFit l) (decLiteralsFit r)

instance (a : Ast) : Decidable a.LiteralsFit := decLiteralsFit a

end Parser.Ast

/-- The integer that a postfix expression stands for. -/
def Parser.NumExpr.exact : NumExpr → Int
  | .leaf n => n.value
  | .node o l r => o.exact (exact l) (exact r)

/-- The rule `('-' >> factor)[&do_neg]`. -/
def Parser.negFactor : Rule := action (seq (ch isSpace '-') factor) doNeg

/-- No action throws, and behind each minus sign the rule leaves a postfix expression for the
negated factor. -/
structure MinusWorks (s : String) (a : Ast) : Prop where
  returns : ∀ st, ∃ x, parse s st = .ok x
  segment : ∀ b ∈ a.negs, ∀ w r st, Derives .factor w b → NoDigit r →
    ∃ e : NumExpr, negFactor ('-' :: (w ++ r)) st = .ok (st ++ e.tokens, some r) ∧
      e.exact = -b.value

/-! ## Single numerals -/

/-- A numeral that can be negated again and again. -/
def Reversible (v : Int) : Prop := -2147483647 ≤ v ∧ v ≤ 2147483647

theorem negate_leaf {n : Numeral} (h : Reversible n.value) :
    negate (.leaf n) = .ok (.leaf (.ofInt (-n.value))) := by
  have hcast : lexicalCast n.text = .ok n.value :=
    lexicalCast_of_numeral n.reads ⟨by unfold intMin; have := h.1; omega, h.2⟩
  have hcheck : checkInt (-1 * n.value) = .ok (-n.value) := by
    rw [Int.neg_one_mul]
    exact checkInt_of_inInt ⟨by unfold intMin; have := h.2; omega, by unfold intMax; have := h.1; omega⟩
  simp only [negate, hcast, hcheck, Except.ok_bind]
  rfl

theorem leaf_of_depth_zero {a : Ast} (hlit : a.LiteralsFit) (h : a.depth = 0) :
    ∃ n : Numeral, a.fold = .ok (.leaf n) ∧ n.value = a.value ∧ Reversible n.value := by
  induction a with
  | lit d =>
    have hfits : digitsValue d.chars ≤ 2147483647 := hlit
    refine ⟨.ofDigits d, rfl, rfl, ?_⟩
    show -2147483647 ≤ (digitsValue d.chars : Int) ∧ (digitsValue d.chars : Int) ≤ 2147483647
    omega
  | neg a ih =>
    obtain ⟨n, hn, hvalue, hrev⟩ := ih hlit h
    refine ⟨.ofInt (-n.value), ?_, by rw [Ast.value, ← hvalue]; rfl, ?_⟩
    · rw [fold_neg hn, negate_leaf hrev]
    · exact ⟨Int.neg_le_neg hrev.2, by have := hrev.1; simp only [Numeral.ofInt]; omega⟩
  | pos a ih => exact ih hlit h
  | bin o l r =>
    rw [Ast.depth] at h
    omega

/-! ## Whole sentences -/

theorem fold_of_simple_negs {a : Ast} (hlit : a.LiteralsFit) (h : ∀ b ∈ a.negs, b.depth = 0) :
    ∃ e, a.fold = .ok e := by
  induction a with
  | lit d => exact ⟨_, rfl⟩
  | neg a ih =>
    obtain ⟨n, hn, -⟩ := leaf_of_depth_zero (a := .neg a) hlit (h a List.mem_cons_self)
    exact ⟨_, hn⟩
  | pos a ih => exact ih hlit h
  | bin o l r ihl ihr =>
    obtain ⟨x, hx⟩ := ihl hlit.1 fun b hb => h b (List.mem_append_left _ hb)
    obtain ⟨y, hy⟩ := ihr hlit.2 fun b hb => h b (List.mem_append_right _ hb)
    exact ⟨_, fold_bin hx hy o⟩

theorem simple_negs_of_fold {a : Ast} {e : NumExpr} (h : a.fold = .ok e) :
    ∀ b ∈ a.negs, b.depth = 0 := by
  induction a generalizing e with
  | lit d => simp [Ast.negs]
  | neg a ih =>
    obtain ⟨e', he', hneg⟩ := neg_fold_ok h
    obtain ⟨n, v, rfl, -, -, rfl⟩ := negate_ok hneg
    rw [Ast.negs, List.forall_mem_cons]
    exact ⟨(height_of_fold he').symm, ih he'⟩
  | pos a ih => exact ih h
  | bin o l r ihl ihr =>
    obtain ⟨x, y, hx, hy, rfl⟩ := bin_fold_ok h
    rw [Ast.negs, List.forall_mem_append]
    exact ⟨ihl hx, ihr hy⟩

theorem literalsFit_of_mem_negs {a : Ast} (hlit : a.LiteralsFit) : ∀ b ∈ a.negs, b.LiteralsFit := by
  induction a with
  | lit d => simp [Ast.negs]
  | neg a ih =>
    rw [Ast.negs, List.forall_mem_cons]
    exact ⟨hlit, ih hlit⟩
  | pos a ih => exact ih hlit
  | bin o l r ihl ihr =>
    rw [Ast.negs, List.forall_mem_append]
    exact ⟨ihl hlit.1, ihr hlit.2⟩

theorem negFactor_segment {b : Ast} (hlit : b.LiteralsFit) (hdepth : b.depth = 0) {w r : List Char}
    (hw : Derives .factor w b) (hr : NoDigit r) (st : List String) :
    ∃ e : NumExpr, negFactor ('-' :: (w ++ r)) st = .ok (st ++ e.tokens, some r) ∧
      e.exact = -b.value := by
  obtain ⟨n, hn, hvalue, hrev⟩ := leaf_of_depth_zero hlit hdepth
  refine ⟨.leaf (.ofInt (-n.value)), ?_, by rw [← hvalue]; rfl⟩
  have hx : factor (w ++ r) st = reading b st r := hw.exact r st hr
  have hskip : skip isSpace ('-' :: (w ++ r)) = '-' :: (w ++ r) := rfl
  rw [negFactor, action_ch_eq hskip, neg_exact hx, reading_ok ((fold_neg hn).trans (negate_leaf hrev))]

/-- Unary minus works throughout a sentence just when no factor behind a minus sign has a binary
operator. -/
theorem minus_works_iff {s : String} {a : Ast} (h : Sentence s a) (hlit : a.LiteralsFit) :
    MinusWorks s a ↔ ∀ b ∈ a.negs, b.depth = 0 := by
  constructor
  · intro hworks
    obtain ⟨⟨stack, rest⟩, hparse⟩ := hworks.returns []
    obtain ⟨e, he, -⟩ := tokens_of_sentence h hparse
    exact simple_negs_of_fold he
  · intro hsimple
    obtain ⟨e, he⟩ := fold_of_simple_negs hlit hsimple
    refine ⟨fun st => ?_, fun b hb w r st hw hr => ?_⟩
    · obtain ⟨ws, hparse⟩ := parse_sentence h st
      exact ⟨_, hparse.trans (reading_ok he st ws)⟩
    · exact negFactor_segment (literalsFit_of_mem_negs hlit b hb) (hsimple b hb) hw hr st

theorem minus_works_of_difference :
    MinusWorks "1 - -2" (.bin .subtract (.lit ⟨['1'], rfl⟩) (.neg (.lit ⟨['2'], rfl⟩))) ↔
      ∀ b ∈ Ast.negs (.bin .subtract (.lit ⟨['1'], rfl⟩) (.neg (.lit ⟨['2'], rfl⟩))), b.depth = 0 :=
  minus_works_iff sentence_difference ⟨by decide, by decide⟩

/-- In `-(1+2)` the last token is `ADD`. -/
theorem minus_of_sum_throws :
    ¬ ∀ (s : String) (a : Ast), Sentence s a → a.LiteralsFit → MinusWorks s a := by
  intro h
  have hterm : ∀ d : Digits, Derives (.chain .product) (([] ++ d.chars) ++ []) (.lit d) :=
    fun d => .chain (l := .product) (.lit blank_nil d) .stop
  have hsum : Derives (.chain .sum) ['1', '+', '2']
      (.bin .add (.lit ⟨['1'], rfl⟩) (.lit ⟨['2'], rfl⟩)) :=
    .chain (l := .sum) (hterm ⟨['1'], rfl⟩)
      (.next (l := .sum) (c := '+') blank_nil rfl (hterm ⟨['2'], rfl⟩) .stop)
  have hneg := Derives.neg blank_nil (.paren blank_nil blank_nil hsum)
  have hsentence : Sentence "-(1+2)" _ :=
    ⟨_, [], rfl, .chain (l := .sum) (.chain (l := .product) hneg .stop) .stop, blank_nil⟩
  obtain ⟨x, hx⟩ := (h _ _ hsentence ⟨by decide, by decide⟩).returns []
  obtain ⟨ws, hparse⟩ := parse_sentence hsentence []
  rw [hparse, reading_error (f := .badLexicalCast) rfl] at hx
  cases hx

end DispCalc
