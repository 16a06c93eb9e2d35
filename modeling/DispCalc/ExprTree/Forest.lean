import DispCalc.ExprTree.Cut
import DispCalc.ExprTree.Tasks

/-!
# Trees of several expressions

`regenerate` accepts the lists of two or three expressions if the last one is a single operand:
that operand becomes the root, as if it were an operator with the others as its arguments.
-/

open Postfix Layout

namespace DispCalc.ExprTree

open OpExpr

/-- The vector of an operand that stands above one or two arguments. -/
def forestHeap (x : Operand) (l : Option OpExpr) (r : OpExpr) : ExprTree :=
  heap (.node x.text (l.elim .nil toTree) (toTree r))

/-! ## `regenerate` -/

theorem foldlM_stuck {s : Regen} (hop : s.wasOp = false) (heb : s.emptyBranch = []) {vs : List String}
    (hvs : vs ≠ []) : vs.foldlM regenStep s = .error .emptyBranch := by
  obtain ⟨v, rest, rfl⟩ := List.exists_cons_of_ne_nil hvs
  obtain ⟨tree, emptyBranch, wasOp, parent⟩ := s
  simp only at hop heb
  subst hop heb
  rfl

theorem reverse_codes_ne_nil {ts : List OpExpr} (h : ts ≠ []) :
    (codes Operand.text Op.name ts).reverse ≠ [] := by
  obtain ⟨t, us, rfl⟩ := List.exists_cons_of_ne_nil h
  simp [Expr.code_ne_nil]

theorem regenerate_forest {ts us : List OpExpr} {y z : OpExpr} (hts : ts = us ++ [y, z]) {t : ExprTree}
    (h : regenerate (codes Operand.text Op.name ts) = .ok t) :
    ∃ x l, z = .leaf x ∧ (∀ e ∈ l, e ∈ us) ∧ t = forestHeap x l y := by
  have hcodes : (codes Operand.text Op.name ts).reverse =
      (tokens z).reverse ++ ((tokens y).reverse ++ (codes Operand.text Op.name us).reverse) := by
    simp [hts, tokens]
  rw [regenerate, hcodes] at h
  rcases z with x | ⟨o, l, r⟩
  · simp only [tokens_leaf, List.reverse_cons, List.reverse_nil, List.nil_append,
      List.singleton_append] at h
    obtain ⟨s, hrun, h⟩ := Except.bind_eq_ok.mp h
    obtain rfl : s.tree = t := Except.ok.inj h
    obtain ⟨s1, h1, hrest⟩ := Except.foldlM_append_eq_ok.mp hrun
    obtain ⟨htree1, heb1, hop1⟩ := regen_tokens_of_ok y (slot_right rfl rfl rfl) h1
    rcases List.eq_nil_or_concat us with rfl | ⟨vs, w, rfl⟩
    · -- Two expressions: the left slot stays free.
      obtain rfl : s1 = s := Except.ok.inj hrest
      exact ⟨x, none, rfl, by simp, htree1⟩
    · have hvs : (codes Operand.text Op.name (vs.concat w)).reverse =
          (tokens w).reverse ++ (codes Operand.text Op.name vs).reverse := by simp [tokens]
      rw [hvs] at hrest
      obtain ⟨s2, h2, hrest⟩ := Except.foldlM_append_eq_ok.mp hrest
      obtain ⟨htree2, heb2, hop2⟩ := regen_tokens_of_ok w (slot_left hop1 heb1) h2
      by_cases hnil : vs = []
      · subst hnil
        obtain rfl : s2 = s := Except.ok.inj hrest
        exact ⟨x, some w, rfl, by simp, by rw [htree2, htree1]; rfl⟩
      · rw [foldlM_stuck hop2 heb2 (reverse_codes_ne_nil hnil)] at hrest
        cases hrest
  · -- An operator at the root takes its own operands, and nothing is left for the others.
    rw [reverse_tokens_node, List.cons_append, List.append_assoc] at h
    obtain ⟨s, hrun, -⟩ := Except.bind_eq_ok.mp h
    obtain ⟨s1, h1, hrest⟩ := Except.foldlM_append_eq_ok.mp hrun
    obtain ⟨-, heb1, hop1⟩ := regen_tokens_of_ok r (slot_right rfl rfl rfl) h1
    obtain ⟨s2, h2, hrest⟩ := Except.foldlM_append_eq_ok.mp hrest
    obtain ⟨-, heb2, hop2⟩ := regen_tokens_of_ok l (slot_left hop1 heb1) h2
    rw [foldlM_stuck hop2 heb2 (by simp [tokens, Expr.code_ne_nil])] at hrest
    cases hrest

/-! ## `chunk` -/

theorem toStack_left_nil (v : String) (r : OpExpr) :
    (heap (.node v .nil (toTree r))).toStack 2 = [null] := by
  have hnull : (heap (.node v .nil (toTree r))).get 2 = null := by
    rw [get_heap, find_below_left (n := 1) le_rfl v .nil (toTree r) (below_self 2)]
    rfl
  rw [toStack_of_not_isOp (by omega) (by rw [hnull]; exact isOp_null), hnull]

/-- The elements that stand for the left argument. -/
def leftPieces (m : Nat) (l : Option OpExpr) : List ExprTree :=
  l.elim [({} : ExprTree).add 1 null] fun e => (cut m e).map pieceHeap

theorem chunk_leftPieces (m : Nat) {depth : Nat} (x : Operand) {l : Option OpExpr} (r : OpExpr)
    (hle : ∀ e ∈ l, Expr.height e ≤ 30) (hdepth : ∀ e ∈ l, Expr.height e < depth) (hpos : 0 < depth) :
    ∃ e1, regenerate ((forestHeap x l r).toStack 2) = .ok e1 ∧
      chunkFrom m depth e1 = .ok (leftPieces m l) := by
  rcases l with _ | e
  · obtain ⟨depth, rfl⟩ : ∃ d, depth = d + 1 := ⟨depth - 1, by omega⟩
    have hzero : (({} : ExprTree).add 1 null).height = (0 : Nat) :=
      height_heap (T := .node null .nil .nil) (by simp)
    refine ⟨({} : ExprTree).add 1 null, ?_, ?_⟩
    · rw [forestHeap, Option.elim_none, toStack_left_nil]
      rfl
    · rw [chunkFrom, if_pos (by rw [hzero]; omega)]
      rfl
  · refine ⟨heap (toTree e), ?_, chunkFrom_heap (hle e rfl) (hdepth e rfl)⟩
    rw [forestHeap, Option.elim_some, toStack_left, regenerate_tokens e (hle e rfl)]

theorem chunk_forest {m : Nat} {x : Operand} {l : Option OpExpr} {r : OpExpr}
    (hle : (forestHeap x l r).height ≤ 30) (hlt : (m : Int) < (forestHeap x l r).height) :
    (forestHeap x l r).chunk m =
      .ok (leftPieces m l ++ (cut m r).map pieceHeap ++ [({} : ExprTree).add 1 x.text]) := by
  -- With a height above `m` the tree is cut at the root. The left argument may be the null mark.
  have hlen : (BinaryTree.node x.text (l.elim .nil toTree) (toTree r)).height ≤
      (forestHeap x l r).values.length := height_le_length (by simp)
  rw [forestHeap, height_heap (by simp)] at hle
  simp only [BinaryTree.height, height_toTree] at hle hlen
  have hleft : ∀ e ∈ l, (l.elim .nil toTree).height = Expr.height e + 1 := by
    rintro e rfl
    exact height_toTree e
  obtain ⟨e1, h1, h2⟩ : ∃ e1, regenerate ((forestHeap x l r).toStack 2) = .ok e1 ∧
      chunkFrom m (forestHeap x l r).values.length e1 = .ok (leftPieces m l) :=
    chunk_leftPieces m x r (fun e he => by have := hleft e he; omega)
      (fun e he => by have := hleft e he; omega) (by omega)
  have h3 : regenerate ((forestHeap x l r).toStack 3) = .ok (heap (toTree r)) := by
    rw [forestHeap, toStack_right, regenerate_tokens r (by omega)]
  have h4 : chunkFrom m (forestHeap x l r).values.length (heap (toTree r)) =
      .ok ((cut m r).map pieceHeap) := chunkFrom_heap (by omega) (by omega)
  refine (chunkFrom_of_lt hlt).mpr ⟨_, _, _, _, h1, h2, h3, h4, ?_⟩
  rw [forestHeap, get_heap_root]

end DispCalc.ExprTree
