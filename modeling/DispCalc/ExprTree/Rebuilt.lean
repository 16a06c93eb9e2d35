import DispCalc.ExprTree.Cut
import DispCalc.ExprTree.Image

/-!
# Heights

`height()` is the length of the longest path of the expression, also for the trees that are
rebuilt from the list of a subtree.
-/

open Postfix Layout

namespace DispCalc.ExprTree

open OpExpr

theorem find_of_sub {e s : OpExpr} {p : List Side} (h : e.sub p = some s) {n i : Nat} {v : String}
    (hn : 1 ≤ n) (hi : find (toTree s) (index n p) i = some v) : find (toTree e) n i = some v := by
  induction p generalizing e n with
  | nil =>
    obtain rfl := Option.some.inj h
    exact hi
  | cons d p ih =>
    rw [index, List.foldl_cons, ← index] at hi
    cases e with
    | leaf a => cases d <;> cases h
    | node o l r =>
      cases d with
      | left => exact find_left (ih h (by omega) hi)
      | right => exact find_right hn (ih h (by omega) hi)

theorem toStack_route {e s : OpExpr} {n : Nat} (hn : 1 ≤ n) (h : e.sub (route n) = some s) :
    (heap (toTree e)).toStack n = tokens s :=
  toStack_of_contains hn fun i v hi => contains_heap _ i v (find_of_sub h le_rfl (by rwa [index_route hn]))

theorem node_of_isOp {e : OpExpr} {n : Nat} (h : isOp ((heap (toTree e)).get n) = true) :
    1 ≤ n ∧ ∃ o l r, e.sub (route n) = some (.node o l r) := by
  have hn : 1 ≤ n := by
    by_contra hzero
    rw [show n = 0 by omega, get, isOp_null] at h
    cases h
  refine ⟨hn, ?_⟩
  rw [get_heap_route e hn] at h
  rcases hs : e.sub (route n) with _ | a | ⟨o, l, r⟩
  · rw [hs] at h
    exact absurd h (by decide)
  · rw [hs] at h
    exact absurd h (by simp [root, a.notOp])
  · exact ⟨o, l, r, rfl⟩

theorem tokens_length_pos (e : OpExpr) : 1 ≤ (tokens e).length :=
  List.length_pos_iff.mpr (Expr.code_ne_nil _ _ e)

theorem height_eq_zero_iff (e : OpExpr) : Expr.height e = 0 ↔ (tokens e).length = 1 := by
  cases e with
  | leaf a => simp
  | node o l r =>
    have hl := tokens_length_pos l
    have hr := tokens_length_pos r
    simp only [Expr.height_node, tokens_node, List.length_append, List.length_singleton]
    omega

theorem regenerate_operands (o : Op) {l r : OpExpr} (h : Expr.height (.node o l r) ≤ 30) :
    regenerate ((heap (toTree (.node o l r))).toStack 2) = .ok (heap (toTree l)) ∧
      regenerate ((heap (toTree (.node o l r))).toStack 3) = .ok (heap (toTree r)) := by
  rw [Expr.height_node] at h
  constructor
  · rw [toTree, toStack_left, regenerate_tokens l (by omega)]
  · rw [toTree, toStack_right, regenerate_tokens r (by omega)]

/-- **`height()` is the real height**, of the tree of an expression and of every tree rebuilt at
one of its operators. -/
theorem height_regenerate (e : OpExpr) (h : Expr.height e ≤ 30) :
    ∃ t, regenerate (tokens e) = .ok t ∧
      (∃ d : Nat, t.height = d ∧ IsGreatest e.depths d) ∧
      (t.height = 0 ↔ (tokens e).length = 1) ∧
      ∀ n, isOp (t.get n) = true → ∃ s u u2 u3, e.sub (route n) = some s ∧
        regenerate (t.toStack n) = .ok u ∧ (∃ d : Nat, u.height = d ∧ IsGreatest s.depths d) ∧
        regenerate (u.toStack 2) = .ok u2 ∧ regenerate (u.toStack 3) = .ok u3 ∧
        max u2.height u3.height = u.height - 1 := by
  refine ⟨_, regenerate_tokens e h, ⟨_, height_heap_toTree e, Expr.isGreatest_height e⟩, ?_, ?_⟩
  · rw [height_heap_toTree, ← height_eq_zero_iff]
    exact Int.natCast_eq_zero
  · intro n hop
    obtain ⟨hn, o, l, r, hs⟩ := node_of_isOp hop
    have hle : Expr.height (.node o l r) ≤ 30 := (Expr.height_sub hs).trans h
    obtain ⟨h2, h3⟩ := regenerate_operands o hle
    refine ⟨.node o l r, _, _, _, hs, ?_, ⟨_, height_heap_toTree _, Expr.isGreatest_height _⟩, h2, h3, ?_⟩
    · rw [toStack_route hn hs, regenerate_tokens _ hle]
    · rw [height_heap_toTree, height_heap_toTree, height_heap_toTree, Expr.height_node]
      omega

/-- `1 - 2 * 3`, rebuilt at the product. -/
theorem height_of_difference :
    ∃ t u u2 u3, regenerate ["1", "2", "3", "MULTIPLY", "SUBTRACT"] = .ok t ∧
      regenerate (t.toStack 3) = .ok u ∧ regenerate (u.toStack 2) = .ok u2 ∧
      regenerate (u.toStack 3) = .ok u3 ∧ max u2.height u3.height = u.height - 1 := by
  obtain ⟨t, ht, -, -, hrebuilt⟩ := height_regenerate
    (.node .subtract (.leaf (.ofNumeral "1" rfl))
      (.node .multiply (.leaf (.ofNumeral "2" rfl)) (.leaf (.ofNumeral "3" rfl))))
    (by decide)
  have hvalues : regenerate ["1", "2", "3", "MULTIPLY", "SUBTRACT"] =
      .ok ⟨["SUBTRACT", "1", "MULTIPLY", null, null, "2", "3"]⟩ := by decide
  obtain rfl := Except.ok.inj (ht.symm.trans hvalues)
  obtain ⟨s, u, u2, u3, -, hu, -, h2, h3, hmax⟩ := hrebuilt 3 (by decide)
  exact ⟨_, u, u2, u3, ht, hu, h2, h3, hmax⟩

end DispCalc.ExprTree
