import DispCalc.ExprTree.Proofs

/-!
# `chunk`

Cutting the vector of an expression gives the vectors of the pieces of the expression.
-/

open Postfix Layout

namespace DispCalc.ExprTree

open OpExpr

def pieceTree : Piece Operand Op → BinaryTree String
  | .part e => toTree e
  | .oper o => .node o.name .nil .nil

/-- The vector of a piece: an element of the list that `chunk` returns. -/
def pieceHeap (p : Piece Operand Op) : ExprTree := heap (pieceTree p)

theorem height_pieceHeap (p : Piece Operand Op) : (pieceHeap p).height = p.height := by
  rcases p with e | o
  · exact height_heap_toTree e
  · exact height_heap (by simp [pieceTree])

theorem toStack_pieceHeap (p : Piece Operand Op) :
    (pieceHeap p).toStack 1 = p.code Operand.text Op.name := by
  rcases p with e | o
  · exact toStack_heap e
  · rcases o <;> rfl

theorem code_of_height_zero {p : Piece Operand Op} (h : p.height = 0) :
    p.code Operand.text Op.name = [(pieceHeap p).getParent] := by
  rcases p with (a | ⟨o, l, r⟩) | o
  · rfl
  · simp [Piece.height] at h
  · rfl

theorem toStack_left (v : String) (l : OpExpr) (R : BinaryTree String) :
    (heap (.node v (toTree l) R)).toStack 2 = tokens l :=
  toStack_of_contains (by omega) (contains_heap _).left

theorem toStack_right (v : String) (L : BinaryTree String) (r : OpExpr) :
    (heap (.node v L (toTree r))).toStack 3 = tokens r :=
  toStack_of_contains (by omega) ((contains_heap _).right le_rfl)

theorem get_heap_root (v : String) (L R : BinaryTree String) : (heap (.node v L R)).get 1 = v := by
  rw [get_heap, find_root le_rfl]
  rfl

theorem chunkFrom_of_lt {m : Int} {depth : Nat} {t : ExprTree} {l : List ExprTree} (hlt : m < t.height) :
    chunkFrom m (depth + 1) t = .ok l ↔
      ∃ e1 l1 e2 l2, regenerate (t.toStack 2) = .ok e1 ∧ chunkFrom m depth e1 = .ok l1 ∧
        regenerate (t.toStack 3) = .ok e2 ∧ chunkFrom m depth e2 = .ok l2 ∧
        l = l1 ++ l2 ++ [({} : ExprTree).add 1 (t.get 1)] := by
  rw [chunkFrom, if_neg (by omega)]
  simp only [Except.bind_eq_ok]
  constructor
  · rintro ⟨e1, h1, l1, h2, e2, h3, l2, h4, h⟩
    exact ⟨e1, l1, e2, l2, h1, h2, h3, h4, (Except.ok.inj h).symm⟩
  · rintro ⟨e1, l1, e2, l2, h1, h2, h3, h4, rfl⟩
    exact ⟨e1, h1, l1, h2, e2, h3, l2, h4, rfl⟩

theorem chunkFrom_heap {m depth : Nat} {e : OpExpr} (h : Expr.height e ≤ 30)
    (hd : Expr.height e < depth) :
    chunkFrom m depth (heap (toTree e)) = .ok ((cut m e).map pieceHeap) := by
  induction e generalizing depth with
  | leaf a =>
    obtain ⟨depth, rfl⟩ : ∃ d, depth = d + 1 := ⟨depth - 1, by simp at hd; omega⟩
    rw [chunkFrom, if_pos (by rw [height_heap_toTree, Expr.height_leaf]; omega)]
    rfl
  | node o l r ihl ihr =>
    obtain ⟨depth, rfl⟩ : ∃ d, depth = d + 1 := ⟨depth - 1, by omega⟩
    rw [Expr.height_node] at h hd
    rcases Nat.lt_or_ge m (Expr.node o l r).height with hm | hm
    · have hl := ihl (by omega) (by omega : l.height < depth)
      have hr := ihr (by omega) (by omega : r.height < depth)
      refine (chunkFrom_of_lt (by rw [height_heap_toTree]; omega)).mpr
        ⟨_, _, _, _, ?_, hl, ?_, hr, ?_⟩
      · rw [toTree, toStack_left, regenerate_tokens l (by omega)]
      · rw [toTree, toStack_right, regenerate_tokens r (by omega)]
      · rw [cut_of_lt hm, toTree, get_heap_root, List.map_append, List.map_append]
        rfl
    · rw [chunkFrom, if_pos (by rw [height_heap_toTree]; omega), cut_of_le hm]
      rfl

theorem height_le_length {T : BinaryTree String} (hT : T ≠ .nil) :
    T.height ≤ (heap T).values.length := by
  have hlen : (heap T).values.length = last T 1 := by
    rw [heap, length_plant T {} le_rfl]
    simp
  have hlast := le_last hT 1
  have hlt : T.height - 1 < 2 ^ (T.height - 1) := Nat.lt_two_pow_self
  omega

theorem chunk_heap {m : Nat} {e : OpExpr} (h : Expr.height e ≤ 30) :
    (heap (toTree e)).chunk m = .ok ((cut m e).map pieceHeap) :=
  chunkFrom_heap h (by have := height_le_length (toTree_ne_nil e); rw [height_toTree] at this; omega)

/-- **`chunk` loses, repeats and reorders nothing.** Each tree it returns is that of a maximal
subexpression within the height, or a single operator whose subexpression is too high. -/
theorem chunk_lossless {e : OpExpr} (h : Expr.height e ≤ 30) {maxH : Int} (hmaxH : 0 ≤ maxH) :
    ∃ t l, regenerate (tokens e) = .ok t ∧ t.chunk maxH = .ok l ∧
      l.flatMap (fun u => u.toStack 1) = t.toStack 1 ∧ t.toStack 1 = tokens e ∧
      ∀ u ∈ l, u.height ≤ maxH ∧
        ((∃ p e', Maximal maxH.toNat e p e' ∧ regenerate (tokens e') = .ok u) ∨
          ∃ p o a b, e.sub p = some (.node o a b) ∧ maxH < (Expr.node o a b).height ∧
            regenerate [o.name] = .ok u) := by
  obtain ⟨m, rfl⟩ := Int.eq_ofNat_of_zero_le hmaxH
  refine ⟨_, _, regenerate_tokens e h, chunk_heap h, ?_, toStack_heap e, fun u hu => ?_⟩
  · rw [toStack_heap, List.flatMap_map]
    simp only [toStack_pieceHeap]
    exact code_cut _ _ m e
  obtain ⟨x, hx, rfl⟩ := List.mem_map.mp hu
  have hle := height_le_of_mem_cut hx
  rcases mem_cut hx with ⟨p, e', rfl, hmax⟩ | ⟨p, o, a, b, rfl, hsub, hlt⟩
  · have hheight := hmax.height
    exact ⟨by rw [height_pieceHeap, Piece.height]; omega,
      Or.inl ⟨p, e', hmax, regenerate_tokens e' (Nat.le_trans hle h)⟩⟩
  · exact ⟨by rw [height_pieceHeap, Piece.height]; omega,
      Or.inr ⟨p, o, a, b, hsub, by omega, rfl⟩⟩

/-- `(1 + 2) * 3`, cut at height 1. -/
theorem chunk_lossless_product :
    ∃ t l, regenerate ["1", "2", "ADD", "3", "MULTIPLY"] = .ok t ∧ t.chunk 1 = .ok l ∧
      l.flatMap (fun u => u.toStack 1) = t.toStack 1 ∧
      t.toStack 1 = ["1", "2", "ADD", "3", "MULTIPLY"] := by
  obtain ⟨t, l, ht, hl, hflat, hstack, -⟩ := chunk_lossless
    (e := .node .multiply
      (.node .add (.leaf (.ofNumeral "1" rfl)) (.leaf (.ofNumeral "2" rfl)))
      (.leaf (.ofNumeral "3" rfl)))
    (by decide) (by decide : (0 : Int) ≤ 1)
  exact ⟨t, l, ht, hl, hflat, hstack⟩

end DispCalc.ExprTree
