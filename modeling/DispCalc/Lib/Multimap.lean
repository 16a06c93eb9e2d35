import Mathlib.Order.Lattice
import Mathlib.Data.List.TakeWhile
import Mathlib.Data.List.Basic

/-!
# Multimaps

A map in the order of its keys that may hold several values of one key, with the operations
that keep the values of a key in the order they came.
-/

structure Multimap (κ ν : Type) [LinearOrder κ] where
  entries : List (κ × ν) := []
  sorted : entries.Pairwise (fun x y => x.1 ≤ y.1) := by simp

namespace Multimap

variable {κ ν : Type} [LinearOrder κ]

/-- The entries that come before a new entry of the key. -/
def upTo (m : Multimap κ ν) (k : κ) : List (κ × ν) := m.entries.takeWhile fun x => x.1 ≤ k

def after (m : Multimap κ ν) (k : κ) : List (κ × ν) := m.entries.dropWhile fun x => x.1 ≤ k

theorem upTo_append_after (m : Multimap κ ν) (k : κ) : m.upTo k ++ m.after k = m.entries :=
  List.takeWhile_append_dropWhile

theorem le_of_mem_upTo {m : Multimap κ ν} {k : κ} {x : κ × ν} (h : x ∈ m.upTo k) : x.1 ≤ k := by
  simpa using List.mem_takeWhile_imp h

theorem lt_of_mem_after {m : Multimap κ ν} {k : κ} {x : κ × ν} (h : x ∈ m.after k) : k < x.1 := by
  have hsorted := m.sorted
  rw [← m.upTo_append_after k, List.pairwise_append] at hsorted
  rcases hafter : m.after k with _ | ⟨y, ys⟩
  · simp [hafter] at h
  · have hy : k < y.1 := by
      have := List.head?_dropWhile_not (fun x : κ × ν => decide (x.1 ≤ k)) m.entries
      rw [show m.entries.dropWhile _ = y :: ys from hafter] at this
      simpa using this
    rw [hafter] at h hsorted
    rcases List.mem_cons.mp h with rfl | hx
    · exact hy
    · exact lt_of_lt_of_le hy ((List.pairwise_cons.mp hsorted.2.1).1 x hx)

/-- A new entry comes behind the entries with the same key. -/
def insert (k : κ) (v : ν) (m : Multimap κ ν) : Multimap κ ν where
  entries := m.upTo k ++ (k, v) :: m.after k
  sorted := by
    have hsorted := m.sorted
    rw [← m.upTo_append_after k, List.pairwise_append] at hsorted
    rw [List.pairwise_append, List.pairwise_cons]
    refine ⟨hsorted.1, ⟨fun y hy => le_of_lt (lt_of_mem_after hy), hsorted.2.1⟩, fun x hx y hy => ?_⟩
    rcases List.mem_cons.mp hy with rfl | hy
    · exact le_of_mem_upTo hx
    · exact hsorted.2.2 x hx y hy

theorem keys_insert (k : κ) (v : ν) (m : Multimap κ ν) :
    ((m.insert k v).entries.map Prod.fst).Perm (k :: m.entries.map Prod.fst) := by
  rw [← m.upTo_append_after k]
  exact List.Perm.map Prod.fst List.perm_middle

/-- The position of the first entry of the key. -/
def find (k : κ) (m : Multimap κ ν) : Option (Fin m.entries.length) :=
  m.entries.findFinIdx? fun x => x.1 = k

def erase (m : Multimap κ ν) (i : Fin m.entries.length) : Multimap κ ν where
  entries := m.entries.eraseIdx i
  sorted := m.sorted.sublist (List.eraseIdx_sublist _ _)

/-! ## The values of one key -/

/-- The values of the key, in the order they came. -/
def values (m : Multimap κ ν) (k : κ) : List ν := (m.entries.filter fun x => x.1 = k).map Prod.snd

theorem values_insert_self (k : κ) (v : ν) (m : Multimap κ ν) :
    (m.insert k v).values k = m.values k ++ [v] := by
  have hnone : (m.after k).filter (fun x => decide (x.1 = k)) = [] := by
    rw [List.filter_eq_nil_iff]
    intro x hx
    simpa using (lt_of_mem_after hx).ne'
  unfold values
  rw [← m.upTo_append_after k]
  simp [insert, hnone]

theorem values_insert_ne {k d : κ} (hne : d ≠ k) (v : ν) (m : Multimap κ ν) :
    (m.insert k v).values d = m.values d := by
  unfold values
  rw [← m.upTo_append_after k]
  simp [insert, hne.symm]

theorem find_none {k : κ} {m : Multimap κ ν} : m.find k = none ↔ m.values k = [] := by
  unfold find values
  rw [List.findFinIdx?_eq_none_iff, List.map_eq_nil_iff, List.filter_eq_nil_iff]

theorem find_some {k : κ} {m : Multimap κ ν} {i : Fin m.entries.length} (h : m.find k = some i) :
    ∃ l v r, m.entries = l ++ (k, v) :: r ∧ l.length = i.val ∧ m.entries[i] = (k, v) ∧
      ∀ x ∈ l, x.1 ≠ k := by
  unfold find at h
  rw [List.findFinIdx?_eq_some_iff] at h
  obtain ⟨hk, hbefore⟩ := h
  have hk' : m.entries[i] = (k, m.entries[i].2) := Prod.ext (by simpa using hk) rfl
  refine ⟨m.entries.take i, m.entries[i].2, m.entries.drop (i + 1), ?_, by simp, hk', ?_⟩
  · rw [← hk']
    simp
  · intro x hx
    obtain ⟨j, hj, rfl⟩ := List.mem_iff_getElem.mp hx
    have hji : j < i := by
      rw [List.length_take] at hj
      omega
    simpa using hbefore ⟨j, by omega⟩ hji

theorem erase_find {k : κ} {m : Multimap κ ν} {i : Fin m.entries.length} (h : m.find k = some i) :
    m.values k = m.entries[i].2 :: (m.erase i).values k ∧
      ∀ d, d ≠ k → (m.erase i).values d = m.values d := by
  obtain ⟨l, v, r, hentries, hlen, hi, hl⟩ := find_some h
  have hnone : l.filter (fun x => decide (x.1 = k)) = [] := by
    rw [List.filter_eq_nil_iff]
    simpa using hl
  have herase : (m.erase i).entries = l ++ r := by
    change m.entries.eraseIdx i = _
    rw [← hlen, hentries, List.eraseIdx_append_of_length_le (Nat.le_refl _)]
    simp
  unfold values
  rw [hi, herase, hentries]
  exact ⟨by simp [hnone], fun d hd => by simp [hd.symm]⟩

end Multimap
