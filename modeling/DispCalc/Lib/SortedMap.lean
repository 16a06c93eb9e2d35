import Mathlib.Order.Lattice
import Mathlib.Data.List.Basic

/-!
# Maps in the order of their keys

A list of entries with increasing keys. `upsert` writes one key and keeps the order.
-/

namespace SortedMap

variable {κ ν : Type} [LinearOrder κ]

/-- Increasing keys, so no key has two entries. -/
def Sorted (m : List (κ × ν)) : Prop := (m.map Prod.fst).Pairwise (· < ·)

instance (m : List (κ × ν)) : Decidable (Sorted m) := inferInstanceAs (Decidable (List.Pairwise _ _))

/-- Writes `v` at the key, over the value that was there. -/
def upsert (k : κ) (v : ν) : List (κ × ν) → List (κ × ν)
  | [] => [(k, v)]
  | (k', v') :: m =>
    if k < k' then (k, v) :: (k', v') :: m
    else if k = k' then (k, v) :: m
    else (k', v') :: upsert k v m

theorem sorted_nil : Sorted ([] : List (κ × ν)) := List.Pairwise.nil

theorem sorted_cons {k : κ} {v : ν} {m : List (κ × ν)} :
    Sorted ((k, v) :: m) ↔ (∀ e ∈ m, k < e.1) ∧ Sorted m := by
  simp [Sorted]

theorem mem_upsert {k : κ} {v : ν} {m : List (κ × ν)} {e : κ × ν} (h : e ∈ upsert k v m) :
    e = (k, v) ∨ e ∈ m := by
  induction m with
  | nil => simpa [upsert] using h
  | cons x m ih =>
    obtain ⟨k', v'⟩ := x
    rw [upsert] at h
    split at h
    · simpa using h
    · split at h
      · rcases List.mem_cons.mp h with h | h
        · exact Or.inl h
        · exact Or.inr (List.mem_cons_of_mem _ h)
      · rcases List.mem_cons.mp h with h | h
        · exact Or.inr (h ▸ List.mem_cons_self)
        · exact (ih h).imp_right (List.mem_cons_of_mem _)

theorem Sorted.upsert {m : List (κ × ν)} (h : Sorted m) (k : κ) (v : ν) :
    Sorted (SortedMap.upsert k v m) := by
  induction m with
  | nil => simp [SortedMap.upsert, Sorted]
  | cons x m ih =>
    obtain ⟨k', v'⟩ := x
    obtain ⟨hlt, hm⟩ := sorted_cons.mp h
    rw [SortedMap.upsert]
    split_ifs with h1 h2
    · refine sorted_cons.mpr ⟨fun e he => ?_, h⟩
      rcases List.mem_cons.mp he with rfl | he
      · exact h1
      · exact h1.trans (hlt e he)
    · exact sorted_cons.mpr ⟨fun e he => h2 ▸ hlt e he, hm⟩
    · refine sorted_cons.mpr ⟨fun e he => ?_, ih hm⟩
      rcases mem_upsert he with rfl | he
      · exact lt_of_le_of_ne (not_lt.mp h1) (Ne.symm h2)
      · exact hlt e he

theorem lookup_cons (k : κ) (v : ν) (m : List (κ × ν)) (k' : κ) :
    ((k, v) :: m).lookup k' = if k' = k then some v else m.lookup k' := by
  rw [List.lookup_cons]
  by_cases h : k' = k
  · rw [if_pos h, beq_iff_eq.mpr h]
  · rw [if_neg h, beq_eq_false_iff_ne.mpr h]

/-- **Reading after a write.** -/
theorem lookup_upsert (m : List (κ × ν)) (k : κ) (v : ν) (k' : κ) :
    (upsert k v m).lookup k' = if k' = k then some v else m.lookup k' := by
  induction m with
  | nil => rw [upsert, lookup_cons]
  | cons x m ih =>
    obtain ⟨k₁, v₁⟩ := x
    rw [upsert]
    by_cases hlt : k < k₁
    · rw [if_pos hlt, lookup_cons]
    · rw [if_neg hlt]
      by_cases heq : k = k₁
      · subst heq
        rw [if_pos rfl, lookup_cons, lookup_cons]
        by_cases h : k' = k <;> simp only [h, if_true, if_false]
      · rw [if_neg heq, lookup_cons, lookup_cons, ih]
        by_cases h : k' = k₁
        · subst h
          rw [if_pos rfl, if_neg (Ne.symm heq), if_pos rfl]
        · rw [if_neg h, if_neg h]

theorem upsert_of_lt {m : List (κ × ν)} {k : κ} (h : ∀ e ∈ m, e.1 < k) (v : ν) :
    upsert k v m = m ++ [(k, v)] := by
  induction m with
  | nil => rfl
  | cons x m ih =>
    obtain ⟨k', v'⟩ := x
    have hk : k' < k := h (k', v') List.mem_cons_self
    rw [upsert, if_neg (not_lt.mpr hk.le), if_neg hk.ne', ih fun e he => h e (List.mem_cons_of_mem _ he)]
    rfl

/-- **Writing the entries of a map one after the other gives the map back.** -/
theorem foldl_upsert {m₁ m₂ : List (κ × ν)} (h : Sorted (m₁ ++ m₂)) :
    m₂.foldl (fun m e => upsert e.1 e.2 m) m₁ = m₁ ++ m₂ := by
  induction m₂ generalizing m₁ with
  | nil => simp
  | cons x m₂ ih =>
    obtain ⟨k, v⟩ := x
    have hlt : ∀ e ∈ m₁, e.1 < k := by
      intro e he
      rw [Sorted, List.map_append, List.pairwise_append] at h
      exact h.2.2 e.1 (List.mem_map_of_mem he) k (by simp)
    rw [List.foldl_cons, upsert_of_lt hlt, ih (by simpa using h)]
    simp

theorem lookup_eq_none {m : List (κ × ν)} {k : κ} (h : ∀ e ∈ m, e.1 ≠ k) : m.lookup k = none := by
  induction m with
  | nil => rfl
  | cons x m ih =>
    rw [lookup_cons, if_neg (Ne.symm (h x List.mem_cons_self)), ih fun e he => h e (List.mem_cons_of_mem _ he)]

theorem mem_of_lookup {m : List (κ × ν)} {k : κ} {v : ν} (h : m.lookup k = some v) : (k, v) ∈ m := by
  induction m with
  | nil => simp at h
  | cons x m ih =>
    rw [lookup_cons] at h
    split at h
    · rename_i hk
      obtain rfl := Option.some.inj h
      exact hk ▸ List.mem_cons_self
    · exact List.mem_cons_of_mem _ (ih h)

theorem Sorted.ext {m₁ m₂ : List (κ × ν)} (h₁ : Sorted m₁) (h₂ : Sorted m₂)
    (h : ∀ k, m₁.lookup k = m₂.lookup k) : m₁ = m₂ := by
  induction m₁ generalizing m₂ with
  | nil =>
    cases m₂ with
    | nil => rfl
    | cons y m₂ =>
      have hy := h y.1
      rw [lookup_cons, if_pos rfl] at hy
      cases hy
  | cons x m₁ ih =>
    cases m₂ with
    | nil =>
      have hx := h x.1
      rw [lookup_cons, if_pos rfl] at hx
      cases hx
    | cons y m₂ =>
      obtain ⟨hx, hm₁⟩ := sorted_cons.mp h₁
      obtain ⟨hy, hm₂⟩ := sorted_cons.mp h₂
      have hkey : x.1 = y.1 := by
        have hxk := h x.1
        have hyk := h y.1
        rw [lookup_cons, if_pos rfl, lookup_cons] at hxk
        rw [lookup_cons, lookup_cons, if_pos rfl] at hyk
        by_contra hne
        rw [if_neg hne] at hxk
        rw [if_neg (Ne.symm hne)] at hyk
        exact lt_asymm (hy _ (mem_of_lookup hxk.symm)) (hx _ (mem_of_lookup hyk))
      have hvalue : x.2 = y.2 := by
        have hxk := h x.1
        rwa [lookup_cons, if_pos rfl, lookup_cons, if_pos hkey, Option.some.injEq] at hxk
      obtain rfl : x = y := Prod.ext hkey hvalue
      rw [ih hm₁ hm₂ fun k => ?_]
      have hk := h k
      rw [lookup_cons, lookup_cons] at hk
      by_cases heq : k = x.1
      · rw [lookup_eq_none fun e he => heq ▸ (hx e he).ne', lookup_eq_none fun e he => heq ▸ (hy e he).ne']
      · rwa [if_neg heq, if_neg heq] at hk

theorem Sorted.foldl_upsert {m₁ : List (κ × ν)} (h : Sorted m₁) (m₂ : List (κ × ν)) :
    Sorted (m₂.foldl (fun m e => SortedMap.upsert e.1 e.2 m) m₁) := by
  induction m₂ generalizing m₁ with
  | nil => exact h
  | cons e m₂ ih => exact ih (h.upsert e.1 e.2)

theorem lookup_foldl_upsert {m₂ : List (κ × ν)} (h : Sorted m₂) (m₁ : List (κ × ν)) (k : κ) :
    (m₂.foldl (fun m e => upsert e.1 e.2 m) m₁).lookup k = (m₂.lookup k).or (m₁.lookup k) := by
  induction m₂ generalizing m₁ with
  | nil => rfl
  | cons e m₂ ih =>
    obtain ⟨hlt, hm₂⟩ := sorted_cons.mp h
    rw [List.foldl_cons, ih hm₂, lookup_upsert, lookup_cons]
    split
    · rename_i hk
      rw [lookup_eq_none fun e' he' => hk ▸ (hlt e' he').ne']
      rfl
    · rfl

theorem foldl_upsert_of_subset {m₁ m₂ : List (κ × ν)} (h₁ : Sorted m₁) (h₂ : Sorted m₂)
    (h : ∀ e ∈ m₁, ∃ v, m₂.lookup e.1 = some v) :
    m₂.foldl (fun m e => upsert e.1 e.2 m) m₁ = m₂ := by
  refine Sorted.ext (h₁.foldl_upsert m₂) h₂ fun k => ?_
  rw [lookup_foldl_upsert h₂]
  cases hk : m₂.lookup k with
  | some v => rfl
  | none =>
    rw [Option.none_or]
    refine lookup_eq_none fun e he heq => ?_
    obtain ⟨v, hv⟩ := h e he
    rw [heq, hk] at hv
    cases hv

end SortedMap
