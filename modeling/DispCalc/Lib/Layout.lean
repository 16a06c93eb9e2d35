import Mathlib.Data.Tree.Basic
import Mathlib.Tactic.Ring

/-!
# Binary trees in an array

A tree laid out from index `n` has its root at `n`, and the children of the node at `i` are
at `2 * i` and `2 * i + 1`. Indices start at 1.
-/

namespace Layout

variable {α : Type}

/-- The label at index `i` of a tree laid out from `n`. -/
def find : BinaryTree α → Nat → Nat → Option α
  | .nil, _, _ => none
  | .node v l r, n, i =>
    (find l (2 * n) i).or ((find r (2 * n + 1) i).or (if i = n then some v else none))

/-- The largest index of a tree laid out from `n`, 0 for the empty tree. -/
def last : BinaryTree α → Nat → Nat
  | .nil, _ => 0
  | .node _ l r, n => max n (max (last r (2 * n + 1)) (last l (2 * n)))

/-! ## Where a subtree lies -/

/-- `i` is `n` or an index below it. -/
def Below (n i : Nat) : Prop := ∃ k, i / 2 ^ k = n

theorem below_self (n : Nat) : Below n n := ⟨0, by simp⟩

theorem Below.le {n i : Nat} (h : Below n i) : n ≤ i := by
  obtain ⟨k, rfl⟩ := h
  exact Nat.div_le_self _ _

theorem Below.of_child {n m i : Nat} (hm : m / 2 = n) (h : Below m i) : Below n i := by
  obtain ⟨k, hk⟩ := h
  exact ⟨k + 1, by rw [pow_succ, ← Nat.div_div_eq_div_mul, hk, hm]⟩

theorem siblings_disjoint {n i : Nat} (hn : 1 ≤ n) (hl : Below (2 * n) i) (hr : Below (2 * n + 1) i) :
    False := by
  obtain ⟨j, hj⟩ := hl
  obtain ⟨k, hk⟩ := hr
  rcases Nat.lt_trichotomy j k with h | rfl | h
  · obtain ⟨d, rfl⟩ : ∃ d, k = j + (d + 1) := ⟨k - j - 1, by omega⟩
    rw [pow_add, ← Nat.div_div_eq_div_mul, hj, pow_succ', ← Nat.div_div_eq_div_mul] at hk
    have := Nat.div_le_self (2 * n / 2) (2 ^ d)
    omega
  · omega
  · obtain ⟨d, rfl⟩ : ∃ d, j = k + (d + 1) := ⟨j - k - 1, by omega⟩
    rw [pow_add, ← Nat.div_div_eq_div_mul, hk, pow_succ', ← Nat.div_div_eq_div_mul] at hj
    have := Nat.div_le_self ((2 * n + 1) / 2) (2 ^ d)
    omega

theorem below_of_find {t : BinaryTree α} {n i : Nat} {v : α} (h : find t n i = some v) : Below n i := by
  induction t generalizing n with
  | nil => simp [find] at h
  | node w l r ihl ihr =>
    simp only [find, Option.or_eq_some_iff] at h
    rcases h with h | ⟨-, h | ⟨-, h⟩⟩
    · exact (ihl h).of_child (by omega)
    · exact (ihr h).of_child (by omega)
    · split at h
      · rename_i hi
        rw [hi]
        exact below_self n
      · cases h

theorem find_eq_none {t : BinaryTree α} {n i : Nat} (h : ¬ Below n i) : find t n i = none := by
  rcases hv : find t n i with _ | v
  · rfl
  · exact absurd (below_of_find hv) h

theorem find_root {n : Nat} (hn : 1 ≤ n) (v : α) (l r : BinaryTree α) :
    find (.node v l r) n n = some v := by
  have hl : find l (2 * n) n = none := find_eq_none fun h => by
    have := h.le
    omega
  have hr : find r (2 * n + 1) n = none := find_eq_none fun h => by
    have := h.le
    omega
  simp [find, hl, hr]

theorem find_below_left {n i : Nat} (hn : 1 ≤ n) (v : α) (l r : BinaryTree α) (h : Below (2 * n) i) :
    find (.node v l r) n i = find l (2 * n) i := by
  have hne : i ≠ n := by
    have := h.le
    omega
  have hr : find r (2 * n + 1) i = none := find_eq_none fun hi => siblings_disjoint hn h hi
  simp [find, hr, hne]

theorem find_below_right {n i : Nat} (hn : 1 ≤ n) (v : α) (l r : BinaryTree α)
    (h : Below (2 * n + 1) i) : find (.node v l r) n i = find r (2 * n + 1) i := by
  have hne : i ≠ n := by
    have := h.le
    omega
  have hl : find l (2 * n) i = none := find_eq_none fun hi => siblings_disjoint hn hi h
  simp [find, hl, hne]

theorem find_left {n i : Nat} {v w : α} {l r : BinaryTree α} (h : find l (2 * n) i = some w) :
    find (.node v l r) n i = some w := by
  simp [find, h]

theorem find_right {n i : Nat} (hn : 1 ≤ n) {v w : α} {l r : BinaryTree α}
    (h : find r (2 * n + 1) i = some w) : find (.node v l r) n i = some w := by
  rw [find_below_right hn v l r (below_of_find h), h]

theorem log2_child {n m : Nat} (hn : 1 ≤ n) (hm : m / 2 = n) : m.log2 = n.log2 + 1 := by
  rw [Nat.log2_def, if_pos (by omega), hm]

/-! ## The largest index belongs to the deepest level -/

theorem last_lt (t : BinaryTree α) (n : Nat) : last t n < (n + 1) * 2 ^ (t.height - 1) := by
  induction t generalizing n with
  | nil => simp [last]
  | node v l r ihl ihr =>
    have hchild : ∀ (t : BinaryTree α) (m : Nat), (m = 2 * n ∨ m = 2 * n + 1) →
        (∀ m, last t m < (m + 1) * 2 ^ (t.height - 1)) →
        t.height ≤ max l.height r.height →
        last t m < (n + 1) * 2 ^ max l.height r.height := by
      intro t m hm ih hle
      rcases Nat.eq_zero_or_pos t.height with h0 | hpos
      · have ht : t = .nil := by
          rcases t with _ | ⟨v, a, b⟩
          · rfl
          · simp at h0
        subst ht
        simp [last]
      · calc last t m < (m + 1) * 2 ^ (t.height - 1) := ih m
          _ ≤ (n + 1) * 2 * 2 ^ (t.height - 1) := Nat.mul_le_mul_right _ (by omega)
          _ = (n + 1) * 2 ^ t.height := by
            rw [Nat.mul_assoc, ← pow_succ', Nat.sub_add_cancel hpos]
          _ ≤ (n + 1) * 2 ^ max l.height r.height :=
            Nat.mul_le_mul_left _ (Nat.pow_le_pow_right (by omega) hle)
    have hn : n < (n + 1) * 2 ^ max l.height r.height :=
      calc n < (n + 1) * 1 := by omega
        _ ≤ (n + 1) * 2 ^ max l.height r.height := Nat.mul_le_mul_left _ Nat.one_le_two_pow
    simp only [last, BinaryTree.height, Nat.add_sub_cancel]
    exact max_lt hn (max_lt (hchild r _ (Or.inr rfl) ihr (le_max_right _ _))
      (hchild l _ (Or.inl rfl) ihl (le_max_left _ _)))

theorem le_last {t : BinaryTree α} (ht : t ≠ .nil) (n : Nat) :
    n * 2 ^ (t.height - 1) ≤ last t n := by
  induction t generalizing n with
  | nil => exact absurd rfl ht
  | node v l r ihl ihr =>
    have hchild : ∀ (t : BinaryTree α) (m : Nat), 2 * n ≤ m → 1 ≤ t.height →
        (t ≠ .nil → m * 2 ^ (t.height - 1) ≤ last t m) → n * 2 ^ t.height ≤ last t m := by
      intro t m hm hpos ih
      have hne : t ≠ .nil := by
        rintro rfl
        simp at hpos
      calc n * 2 ^ t.height = 2 * n * 2 ^ (t.height - 1) := by
            rw [← Nat.sub_add_cancel hpos, Nat.add_sub_cancel, pow_succ]
            ring
        _ ≤ m * 2 ^ (t.height - 1) := Nat.mul_le_mul_right _ hm
        _ ≤ last t m := ih hne
    simp only [last, BinaryTree.height, Nat.add_sub_cancel]
    rcases Nat.eq_zero_or_pos (max l.height r.height) with h0 | hpos
    · rw [h0]
      simp
    · rcases le_total l.height r.height with hle | hle
      · rw [max_eq_right hle] at hpos ⊢
        have := hchild r (2 * n + 1) (by omega) hpos (fun h => ihr h _)
        omega
      · rw [max_eq_left hle] at hpos ⊢
        have := hchild l (2 * n) (by omega) hpos (fun h => ihl h _)
        omega

theorem log2_last {t : BinaryTree α} (ht : t ≠ .nil) : Nat.log2 (last t 1) = t.height - 1 := by
  have hlow := le_last ht 1
  have hhigh := last_lt t 1
  have hpos : 0 < 2 ^ (t.height - 1) := Nat.two_pow_pos _
  rw [Nat.log2_eq_iff (by omega), pow_succ]
  omega

end Layout
