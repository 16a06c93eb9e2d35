import DispCalc.ExprTree.Code
import DispCalc.Lib.Postfix
import DispCalc.Lib.Reading
import Mathlib.Tactic.Linarith

/-!
# Trees of expressions

`regenerate` lays an expression out in the vector, `height` is its height, and `toStack`
gives its postfix list back.
-/

open Postfix Layout

namespace DispCalc.ExprTree

/-! ## Writing and reading slots -/

theorem get_add {n : Nat} (hn : 1 ≤ n) (t : ExprTree) (v : String) (i : Nat) :
    (t.add n v).get i = if i = n then v else t.get i := by
  obtain ⟨values⟩ := t
  match i with
  | 0 => simp [get, show ¬ 0 = n by omega]
  | i + 1 =>
    unfold add
    split
    · rename_i hlen
      simp only at hlen
      simp only [get, List.getD_eq_getElem?_getD, List.append_assoc]
      rcases Nat.lt_trichotomy i values.length with h | rfl | h
      · rw [List.getElem?_append_left h, if_neg (by omega)]
      · by_cases hi : values.length + 1 = n
        · subst hi
          simp
        · rw [if_neg hi, List.getElem?_append_right (by omega),
            List.getElem?_append_left (by simp; omega)]
          simp [show values.length < n - 1 by omega]
      · rw [List.getElem?_append_right (by omega)]
        by_cases hi : i + 1 = n
        · rw [if_pos hi, List.getElem?_append_right (by simp; omega)]
          simp [show i - values.length - (n - 1 - values.length) = 0 by omega]
        · rw [if_neg hi, List.getElem?_eq_none (by omega : values.length ≤ i)]
          rcases Nat.lt_or_ge (i - values.length) (n - 1 - values.length) with hlt | hge
          · rw [List.getElem?_append_left (by simpa using hlt)]
            simp [hlt]
          · rw [List.getElem?_append_right (by simpa using hge)]
            simp [show i - values.length - (n - 1 - values.length) ≠ 0 by omega]
    · rename_i hlen
      simp only [not_lt] at hlen
      simp only [get, List.getD_eq_getElem?_getD, List.getElem?_set]
      by_cases hi : i + 1 = n
      · simp [show n - 1 = i by omega, show i < values.length by omega, hi]
      · simp [show ¬ n - 1 = i by omega, hi]

theorem length_add (t : ExprTree) (n : Nat) (v : String) :
    (t.add n v).values.length = max t.values.length n := by
  unfold add
  split
  · simp
    omega
  · simp
    omega

/-- A tree written slot by slot, in the order of `regenerate`: root, right, left. -/
def plant : ExprTree → Nat → BinaryTree String → ExprTree
  | t, _, .nil => t
  | t, n, .node v l r => plant (plant (t.add n v) (2 * n + 1) r) (2 * n) l

theorem get_plant (T : BinaryTree String) (t : ExprTree) {n : Nat} (hn : 1 ≤ n) (i : Nat) :
    (plant t n T).get i = (find T n i).getD (t.get i) := by
  induction T generalizing t n with
  | nil => rfl
  | node v l r ihl ihr =>
    rw [plant, ihl _ (by omega), ihr _ (by omega), get_add hn, find]
    rcases find l (2 * n) i with _ | w
    · rcases find r (2 * n + 1) i with _ | w
      · by_cases hi : i = n <;> simp [hi]
      · simp
    · simp

theorem length_plant (T : BinaryTree String) (t : ExprTree) {n : Nat} (hn : 1 ≤ n) :
    (plant t n T).values.length = max t.values.length (last T n) := by
  induction T generalizing t n with
  | nil => simp [plant, last]
  | node v l r ihl ihr =>
    rw [plant, ihl _ (by omega), ihr _ (by omega), length_add, last]
    omega

/-- The vector of a tree. -/
def heap (T : BinaryTree String) : ExprTree := plant {} 1 T

theorem get_heap (T : BinaryTree String) (i : Nat) : (heap T).get i = (find T 1 i).getD null := by
  rw [heap, get_plant T {} le_rfl]
  congr 1
  rcases i with _ | i <;> rfl

theorem height_heap {T : BinaryTree String} (hT : T ≠ .nil) :
    (heap T).height = ((T.height - 1 : Nat) : Int) := by
  have hlen : (heap T).values.length = last T 1 := by
    rw [heap, length_plant T {} le_rfl]
    simp
  have hne : (heap T).values ≠ [] := by
    intro h
    have := le_last hT 1
    have := Nat.two_pow_pos (T.height - 1)
    rw [h] at hlen
    simp at hlen
    omega
  rw [height, if_neg hne, hlen, log2_last hT]

/-! ## Expressions -/

/-- A token that is neither an operator nor the null mark. -/
structure Operand where
  text : String
  notOp : isOp text = false
  notNull : text ≠ null

def Operand.ofNumeral (text : String) (h : startsNumeral text = true) : Operand where
  text := text
  notOp := isOp_of_startsNumeral h
  notNull := fun hnull => by
    rw [hnull] at h
    exact absurd h (by decide)

abbrev OpExpr := Expr Operand Op

namespace OpExpr

def tokens (e : OpExpr) : List String := e.code Operand.text Op.name

def toTree : OpExpr → BinaryTree String
  | .leaf a => .node a.text .nil .nil
  | .node o l r => .node o.name (toTree l) (toTree r)

@[simp] theorem tokens_leaf (a : Operand) : tokens (.leaf a) = [a.text] := rfl

@[simp] theorem tokens_node (o : Op) (l r : OpExpr) :
    tokens (.node o l r) = tokens l ++ tokens r ++ [o.name] := rfl

theorem reverse_tokens_node (o : Op) (l r : OpExpr) :
    (tokens (.node o l r)).reverse = o.name :: ((tokens r).reverse ++ (tokens l).reverse) := by
  simp

theorem toTree_ne_nil (e : OpExpr) : toTree e ≠ .nil := by
  rcases e with a | ⟨o, l, r⟩ <;> simp [toTree]

theorem height_toTree (e : OpExpr) : (toTree e).height = Expr.height e + 1 := by
  induction e with
  | leaf a => rfl
  | node o l r ihl ihr =>
    simp only [toTree, BinaryTree.height, Expr.height_node, ihl, ihr]
    omega

def root : OpExpr → String
  | .leaf a => a.text
  | .node o _ _ => o.name

theorem find_toTree_root (e : OpExpr) {n : Nat} (hn : 1 ≤ n) :
    find (toTree e) n n = some (root e) := by
  rcases e with a | ⟨o, l, r⟩
  · exact find_root hn _ _ _
  · exact find_root hn _ _ _

theorem root_ne_null (e : OpExpr) : root e ≠ null := by
  rcases e with a | ⟨o, l, r⟩
  · exact a.notNull
  · rcases o <;> simp [root, Op.name, null]

end OpExpr

open OpExpr

theorem height_heap_toTree (e : OpExpr) : (heap (toTree e)).height = Expr.height e := by
  rw [height_heap (toTree_ne_nil e), height_toTree]
  simp

/-! ## `regenerate` -/

/-- The next token goes to index `n` and leaves `emptyBranch` as `eb`. -/
def Slot (s : Regen) (n : Nat) (eb : List Nat) : Prop :=
  (s.wasOp = true ∧ n = 2 * s.parent + 1 ∧ eb = s.parent :: s.emptyBranch) ∨
  (s.wasOp = false ∧ ∃ parent, s.emptyBranch = parent :: eb ∧ n = 2 * parent)

theorem regenStep_slot {s : Regen} {n : Nat} {eb : List Nat} (h : Slot s n eb)
    (hn : n ≤ 2147483647) (v : String) :
    ∃ s', regenStep s v = .ok s' ∧ s'.tree = s.tree.add n v ∧ s'.emptyBranch = eb ∧
      s'.wasOp = isOp v ∧ (isOp v = true → s'.parent = n) := by
  -- The new `parent` matters only after an operator: otherwise the next iteration takes one from
  -- `emptyBranch`.
  obtain ⟨tree, emptyBranch, wasOp, parent⟩ := s
  rcases h with ⟨hop, hn', rfl⟩ | ⟨hop, p, heb, hn'⟩
  · simp only at hop hn'
    have hright : rightN parent = .ok n := by
      rw [rightN, if_pos (by omega), hn', Nat.mul_comm]
    by_cases hv : isOp v = true
    · exact ⟨⟨tree.add n v, parent :: emptyBranch, true, n⟩,
        by simp [regenStep, hop, hright, hv, bind, Except.bind, pure, Except.pure], rfl, rfl,
        hv.symm, fun _ => rfl⟩
    · exact ⟨⟨tree.add n v, parent :: emptyBranch, false, parent⟩,
        by simp [regenStep, hop, hright, hv, bind, Except.bind, pure, Except.pure], rfl, rfl,
        by simpa using hv, fun h => absurd h hv⟩
  · simp only at hop heb hn'
    subst heb
    have hleft : leftN p = .ok n := by
      rw [leftN, if_pos (by omega), hn', Nat.mul_comm]
    by_cases hv : isOp v = true
    · exact ⟨⟨tree.add n v, eb, true, n⟩,
        by simp [regenStep, hop, hleft, hv, bind, Except.bind, pure, Except.pure], rfl, rfl,
        hv.symm, fun _ => rfl⟩
    · exact ⟨⟨tree.add n v, eb, false, parentN p⟩,
        by simp [regenStep, hop, hleft, hv, bind, Except.bind, pure, Except.pure], rfl, rfl,
        by simpa using hv, fun h => absurd h hv⟩

theorem slot_right {s : Regen} {n : Nat} {eb : List Nat} (hop : s.wasOp = true)
    (hp : s.parent = n) (heb : s.emptyBranch = eb) : Slot s (2 * n + 1) (n :: eb) := by
  subst hp heb
  exact Or.inl ⟨hop, rfl, rfl⟩

theorem slot_left {s : Regen} {n : Nat} {eb : List Nat} (hop : s.wasOp = false)
    (heb : s.emptyBranch = n :: eb) : Slot s (2 * n) eb :=
  Or.inr ⟨hop, n, heb, rfl⟩

/-- Every node of a tree that is laid out from `n` has an index. -/
def Room (n : Nat) (T : BinaryTree String) : Prop := (n + 1) * 2 ^ T.height ≤ 2 ^ 32

theorem Room.child {n m : Nat} {v : String} {l r T : BinaryTree String} (h : Room n (.node v l r))
    (hm : m ≤ 2 * n + 1) (hT : T.height ≤ max l.height r.height) : Room m T := by
  unfold Room at h ⊢
  rw [BinaryTree.height, pow_succ'] at h
  calc (m + 1) * 2 ^ T.height ≤ (2 * n + 2) * 2 ^ T.height := Nat.mul_le_mul_right _ (by omega)
    _ ≤ (2 * n + 2) * 2 ^ max l.height r.height :=
      Nat.mul_le_mul_left _ (Nat.pow_le_pow_right (by omega) hT)
    _ = (n + 1) * (2 * 2 ^ max l.height r.height) := by ring
    _ ≤ 2 ^ 32 := h

theorem Room.right {n : Nat} {v : String} {l r : BinaryTree String} (h : Room n (.node v l r)) :
    Room (2 * n + 1) r := h.child le_rfl (le_max_right _ _)

theorem Room.left {n : Nat} {v : String} {l r : BinaryTree String} (h : Room n (.node v l r)) :
    Room (2 * n) l := h.child (by omega) (le_max_left _ _)

theorem Room.index {n : Nat} {T : BinaryTree String} (h : Room n T) (hT : T ≠ .nil) :
    n ≤ 2147483647 := by
  cases T with
  | nil => exact absurd rfl hT
  | node v l r =>
    have hchild := h.right
    have hle := Nat.le_mul_of_pos_right (2 * n + 1 + 1) (Nat.two_pow_pos r.height)
    unfold Room at hchild
    omega

theorem room_one {T : BinaryTree String} (h : T.height ≤ 31) : Room 1 T := by
  unfold Room
  calc (1 + 1) * 2 ^ T.height ≤ 2 * 2 ^ 31 :=
        Nat.mul_le_mul_left _ (Nat.pow_le_pow_right (by omega) h)
    _ = 2 ^ 32 := by norm_num

theorem regen_full {T : BinaryTree String} (hT : Full isOp T) {s : Regen} {n : Nat} {eb : List Nat}
    (h : Slot s n eb) (hroom : Room n T) :
    ∃ s', (reading T).foldlM regenStep s = .ok s' ∧ s'.tree = plant s.tree n T ∧
      s'.emptyBranch = eb ∧ s'.wasOp = false := by
  induction hT generalizing s n eb with
  | @operand v hv =>
    obtain ⟨s', hstep, htree, heb, hop, -⟩ := regenStep_slot h (hroom.index (by simp)) v
    refine ⟨s', ?_, htree, heb, by rw [hop, hv]⟩
    rw [reading, List.foldlM_cons, hstep, Except.ok_bind]
    rfl
  | @operator v l r hv hl hr ihl ihr =>
    obtain ⟨s1, hstep, htree1, heb1, hop1, hpar1⟩ := regenStep_slot h (hroom.index (by simp)) v
    obtain ⟨s2, hrun2, htree2, heb2, hop2⟩ :=
      ihr (slot_right (by rw [hop1, hv]) (hpar1 hv) heb1) hroom.right
    obtain ⟨s3, hrun3, htree3, heb3, hop3⟩ := ihl (slot_left hop2 heb2) hroom.left
    refine ⟨s3, ?_, ?_, heb3, hop3⟩
    · rw [reading, List.foldlM_cons, hstep, Except.ok_bind, List.foldlM_append, hrun2,
        Except.ok_bind, hrun3]
    · rw [htree3, htree2, htree1]
      rfl

theorem regen_begun {T : BinaryTree String} (hT : Begun isOp T) {s : Regen} {n : Nat} {eb : List Nat}
    (h : Slot s n eb) (hroom : Room n T) :
    ∃ s', (reading T).foldlM regenStep s = .ok s' ∧ s'.tree = plant s.tree n T := by
  induction hT generalizing s n eb with
  | nil => exact ⟨s, rfl, rfl⟩
  | @operand v hv =>
    obtain ⟨s', hrun, htree, -⟩ := regen_full (.operand hv) h hroom
    exact ⟨s', hrun, htree⟩
  | @right v r hv hr ih =>
    obtain ⟨s1, hstep, htree1, heb1, hop1, hpar1⟩ := regenStep_slot h (hroom.index (by simp)) v
    obtain ⟨s2, hrun2, htree2⟩ := ih (slot_right (by rw [hop1, hv]) (hpar1 hv) heb1) hroom.right
    refine ⟨s2, ?_, by rw [htree2, htree1]; rfl⟩
    rw [reading, List.foldlM_cons, hstep, Except.ok_bind, List.foldlM_append, hrun2]
    rfl
  | @left v l r hv hl hr ih =>
    obtain ⟨s1, hstep, htree1, heb1, hop1, hpar1⟩ := regenStep_slot h (hroom.index (by simp)) v
    obtain ⟨s2, hrun2, htree2, heb2, hop2⟩ :=
      regen_full hr (slot_right (by rw [hop1, hv]) (hpar1 hv) heb1) hroom.right
    obtain ⟨s3, hrun3, htree3⟩ := ih (slot_left hop2 heb2) hroom.left
    refine ⟨s3, ?_, by rw [htree3, htree2, htree1]; rfl⟩
    rw [reading, List.foldlM_cons, hstep, Except.ok_bind, List.foldlM_append, hrun2,
      Except.ok_bind, hrun3]

theorem regenerate_reading (v : String) {l r : BinaryTree String} (h : Operands isOp l r)
    (hroom : Room 1 (.node v l r)) :
    regenerate (reading (.node v l r)).reverse = .ok (heap (.node v l r)) := by
  have hslot : Slot ⟨({} : ExprTree).add 1 v, [], true, 1⟩ (2 * 1 + 1) [1] := slot_right rfl rfl rfl
  rw [regenerate, List.reverse_reverse, reading]
  simp only [List.foldlM_append]
  rcases h with ⟨rfl, hr⟩ | ⟨hl, hr⟩
  · obtain ⟨s1, hrun1, htree1⟩ := regen_begun hr hslot hroom.right
    rw [hrun1, Except.ok_bind, reading, List.foldlM_nil]
    exact congrArg Except.ok htree1
  · obtain ⟨s1, hrun1, htree1, heb1, hop1⟩ := regen_full hr hslot hroom.right
    obtain ⟨s2, hrun2, htree2⟩ := regen_begun hl (slot_left hop1 heb1) hroom.left
    rw [hrun1, Except.ok_bind, hrun2]
    exact congrArg Except.ok (by rw [htree2, htree1]; rfl)

theorem full_toTree (e : OpExpr) : Full isOp (toTree e) := by
  induction e with
  | leaf a => exact .operand a.notOp
  | node o l r ihl ihr => exact .operator (isOp_name o) ihl ihr

theorem reading_toTree (e : OpExpr) : reading (toTree e) = (tokens e).reverse := by
  induction e with
  | leaf a => rfl
  | node o l r ihl ihr => rw [toTree, reading, ihl, ihr, reverse_tokens_node]

theorem room_toTree {e : OpExpr} {n : Nat} (h : (n + 1) * 2 ^ Expr.height e ≤ 2 ^ 31) :
    Room n (toTree e) := by
  unfold Room
  rw [height_toTree, pow_succ, ← Nat.mul_assoc]
  omega

theorem regen_tokens (e : OpExpr) {s : Regen} {n : Nat} {eb : List Nat} (h : Slot s n eb)
    (hn : (n + 1) * 2 ^ Expr.height e ≤ 2 ^ 31) :
    ∃ s', (tokens e).reverse.foldlM regenStep s = .ok s' ∧ s'.tree = plant s.tree n (toTree e) ∧
      s'.emptyBranch = eb ∧ s'.wasOp = false := by
  rw [← reading_toTree]
  exact regen_full (full_toTree e) h (room_toTree hn)

theorem regenerate_tokens (e : OpExpr) (h : Expr.height e ≤ 30) :
    regenerate (tokens e) = .ok (heap (toTree e)) := by
  have hroom : Room 1 (toTree e) := room_one (by rw [height_toTree]; omega)
  rw [← (tokens e).reverse_reverse, ← reading_toTree]
  cases e with
  | leaf a => rfl
  | node o l r => exact regenerate_reading o.name (Or.inr ⟨(full_toTree l).begun, full_toTree r⟩) hroom

/-! ## `toStack` -/

theorem get_of_length_lt {t : ExprTree} {n : Nat} (h : t.values.length < n) : t.get n = null := by
  match n with
  | 0 => rfl
  | n + 1 => simp [get, List.getD_eq_getElem?_getD, List.getElem?_eq_none (by omega : t.values.length ≤ n)]

theorem isOp_null : isOp null = false := by decide

theorem toStackFrom_succ (t : ExprTree) (depth : Nat) {n : Nat} (hn : 1 ≤ n)
    (h : t.values.length < n + depth) : toStackFrom t (depth + 1) n = toStackFrom t depth n := by
  induction depth generalizing n with
  | zero =>
    have hnull : t.get n = null := get_of_length_lt h
    simp [toStackFrom, hnull, isOp_null]
  | succ depth ih =>
    conv_lhs => rw [toStackFrom]
    rw [ih (n := n * 2) (by omega) (by omega), ih (n := n * 2 + 1) (by omega) (by omega)]
    rfl

theorem toStack_eq (t : ExprTree) {n : Nat} (hn : 1 ≤ n) :
    t.toStack n =
      (if isOp (t.get n) && t.get (n * 2) != null then t.toStack (n * 2) else []) ++
      (if isOp (t.get n) && t.get (n * 2 + 1) != null then t.toStack (n * 2 + 1) else []) ++
      [t.get n] := by
  unfold toStack
  conv_lhs => rw [toStackFrom]
  rw [toStackFrom_succ t _ (n := n * 2) (by omega) (by omega),
    toStackFrom_succ t _ (n := n * 2 + 1) (by omega) (by omega)]

theorem toStack_of_not_isOp {t : ExprTree} {n : Nat} (hn : 1 ≤ n) (h : isOp (t.get n) = false) :
    t.toStack n = [t.get n] := by
  rw [toStack_eq t hn]
  simp [h]

/-- The vector has the labels of a tree that is laid out from `n`. -/
def Contains (t : ExprTree) (T : BinaryTree String) (n : Nat) : Prop :=
  ∀ i v, find T n i = some v → t.get i = v

theorem contains_heap (T : BinaryTree String) : Contains (heap T) T 1 := fun i v h => by
  rw [get_heap, h]
  rfl

theorem Contains.left {t : ExprTree} {n : Nat} {v : String} {l r : BinaryTree String}
    (h : Contains t (.node v l r) n) : Contains t l (n * 2) := fun i w hi =>
  h i w (find_left (by rwa [Nat.mul_comm]))

theorem Contains.right {t : ExprTree} {n : Nat} {v : String} {l r : BinaryTree String}
    (h : Contains t (.node v l r) n) (hn : 1 ≤ n) : Contains t r (n * 2 + 1) := fun i w hi =>
  h i w (find_right hn (by rwa [Nat.mul_comm n 2] at hi))

theorem Contains.root {t : ExprTree} {e : OpExpr} {n : Nat} (h : Contains t (toTree e) n) (hn : 1 ≤ n) :
    t.get n = OpExpr.root e := h n _ (find_toTree_root e hn)

theorem toStack_of_contains {t : ExprTree} {e : OpExpr} {n : Nat} (hn : 1 ≤ n)
    (h : Contains t (toTree e) n) : t.toStack n = tokens e := by
  induction e generalizing n with
  | leaf a =>
    have ha : t.get n = a.text := h.root hn
    rw [toStack_of_not_isOp hn (by rw [ha, a.notOp]), ha]
    rfl
  | node o l r ihl ihr =>
    have ho : t.get n = o.name := h.root hn
    have hlroot := Contains.root h.left (e := l) (by omega)
    have hrroot := Contains.root (h.right hn) (e := r) (by omega)
    rw [toStack_eq t hn, ihl (by omega) h.left, ihr (by omega) (h.right hn), ho, hlroot, hrroot]
    simp [root_ne_null]

theorem toStack_heap (e : OpExpr) : (heap (toTree e)).toStack 1 = tokens e :=
  toStack_of_contains le_rfl (contains_heap _)

end DispCalc.ExprTree
