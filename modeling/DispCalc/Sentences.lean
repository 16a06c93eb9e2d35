import DispCalc.ExprTree.Indices
import DispCalc.Supervisor.Requests
import DispCalc.Typed

/-!
# Trees of sentences

How deep the operators of a sentence are nested decides whether its tree has indices.
-/

open Postfix DispCalc.Parser DispCalc.ExprTree DispCalc.ClientControllerSupervisor

namespace DispCalc

/-- How many binary operators apply one to the result of the other. -/
def Parser.Ast.depth : Ast → Nat
  | .lit _ => 0
  | .neg a => a.depth
  | .pos a => a.depth
  | .bin _ l r => max l.depth r.depth + 1

theorem height_of_fold {a : Ast} {e : NumExpr} (h : a.fold = .ok e) : Expr.height e = a.depth := by
  induction a generalizing e with
  | lit d =>
    cases h
    rfl
  | neg a ih =>
    obtain ⟨e', he', hneg⟩ := neg_fold_ok h
    obtain ⟨n, v, rfl, -, -, rfl⟩ := negate_ok hneg
    rw [Expr.height_leaf, Ast.depth, ← ih he', Expr.height_leaf]
  | pos a ih => exact ih h
  | bin o l r ihl ihr =>
    obtain ⟨x, y, hx, hy, rfl⟩ := bin_fold_ok h
    rw [Expr.height_node, ihl hx, ihr hy, Ast.depth]

theorem indicesInRange_fold {a : Ast} {e : NumExpr} (h : a.fold = .ok e) :
    IndicesInRange e.tokens ↔ a.depth ≤ 30 := by
  rw [← tokens_toOperand, indicesInRange_iff, Expr.height_map, height_of_fold h]

theorem tokens_of_sentence {s : String} {a : Ast} (h : Sentence s a) {stack : List String}
    {rest : Option (List Char)} (hparse : parse s [] = .ok (stack, rest)) :
    ∃ e, a.fold = .ok e ∧ stack = e.tokens := by
  obtain ⟨ws, hreading⟩ := parse_sentence h []
  rw [hparse] at hreading
  cases ha : a.fold with
  | error f =>
    rw [reading_error ha] at hreading
    cases hreading
  | ok e =>
    rw [reading_ok ha, List.nil_append] at hreading
    exact ⟨e, rfl, (Prod.mk.inj (Except.ok.inj hreading)).1⟩

/-- The indices of a sentence overflow exactly when its operators are nested more than 30 deep. -/
theorem tree_indices_iff {s : String} {a : Ast} (h : Sentence s a) {stack : List String}
    {rest : Option (List Char)} (hparse : parse s [] = .ok (stack, rest)) :
    IndicesInRange stack ↔ a.depth ≤ 30 := by
  obtain ⟨e, he, rfl⟩ := tokens_of_sentence h hparse
  exact indicesInRange_fold he

/-! ## Long sums -/

/-- `a + 1 + ... + 1`. -/
def sums : Nat → Ast → Ast
  | 0, a => a
  | n + 1, a => sums n (.bin .add a one)

def sumsText (n : Nat) : List Char := (List.replicate n ['+', '1']).flatten

theorem depth_sums (n : Nat) (a : Ast) : (sums n a).depth = a.depth + n := by
  induction n generalizing a with
  | zero => rfl
  | succ n ih =>
    rw [sums, ih, Ast.depth]
    simp only [one, Ast.depth]
    omega

theorem fold_sums (n : Nat) {a : Ast} {e : NumExpr} (h : a.fold = .ok e) :
    ∃ e', (sums n a).fold = .ok e' := by
  induction n generalizing a e with
  | zero => exact ⟨e, h⟩
  | succ n ih => exact ih (fold_bin h rfl .add)

theorem derives_sums (n : Nat) (a : Ast) : Derives (.tail .sum a) (sumsText n) (sums n a) := by
  induction n generalizing a with
  | zero => exact .stop
  | succ n ih =>
    have hone : Derives Level.sum.operand (([] ++ ['1']) ++ []) one :=
      .chain (l := .product) (.lit blank_nil ⟨['1'], rfl⟩) .stop
    exact .next (l := .sum) (c := '+') blank_nil rfl hone (ih _)

theorem sentence_sums (n : Nat) : Sentence (String.ofList ('1' :: sumsText n)) (sums n one) := by
  have hone : Derives Level.sum.operand (([] ++ ['1']) ++ []) one :=
    .chain (l := .product) (.lit blank_nil ⟨['1'], rfl⟩) .stop
  refine ⟨'1' :: sumsText n, [], ?_, .chain (l := .sum) hone (derives_sums n one), blank_nil⟩
  have hchars : ∀ c ∈ '1' :: sumsText n, c ≠ '\x00' := by
    intro c hc
    simp only [sumsText, List.mem_cons, List.mem_flatten, List.mem_replicate] at hc
    rcases hc with rfl | ⟨l, ⟨-, rfl⟩, hc⟩
    · decide
    · simp only [List.mem_cons, List.not_mem_nil, or_false] at hc
      rcases hc with rfl | rfl <;> decide
  rw [cStr, String.toList_ofList, List.append_nil,
    List.takeWhile_eq_self_iff.mpr fun c hc => by simpa using hchars c hc]

theorem tree_indices_of_sum : IndicesInRange ["1", "1", "ADD"] ↔ (sums 1 one).depth ≤ 30 :=
  tree_indices_iff (sentence_sums 1) (rfl : parse "1+1" [] = .ok (["1", "1", "ADD"], some []))

/-- The sum of 32 ones. -/
theorem tree_index_overflow :
    ¬ ∀ (s : String) (a : Ast) (stack : List String) (rest : Option (List Char)), Sentence s a →
      parse s [] = .ok (stack, rest) → IndicesInRange stack := by
  intro h
  obtain ⟨e, he⟩ := fold_sums 31 (rfl : one.fold = .ok _)
  obtain ⟨ws, hparse⟩ := parse_sentence (sentence_sums 31) []
  rw [reading_ok he, List.nil_append] at hparse
  have hdepth := (indicesInRange_fold he).mp (h _ _ _ _ (sentence_sums 31) hparse)
  rw [depth_sums] at hdepth
  simp only [one, Ast.depth] at hdepth
  omega

end DispCalc
