import DispCalc.ExprTree.Indices
import DispCalc.Lib.Paths

/-!
# The heap image

What `regenerate` leaves at each index: the token of the node that the index leads to, or the
null mark. No index is written twice.
-/

open Postfix Layout

namespace DispCalc.ExprTree

open OpExpr

/-! ## The node at an index -/

theorem find_toTree_index (e : OpExpr) {n : Nat} (hn : 1 ≤ n) (p : List Side) :
    find (toTree e) n (index n p) = (e.sub p).map root := by
  induction p generalizing e n with
  | nil => exact find_toTree_root e hn
  | cons s p ih =>
    have hbelow := below_index (child s n) p
    have hchild : 1 ≤ child s n := by
      have := le_child s n
      omega
    rw [index, List.foldl_cons, ← index]
    cases e with
    | leaf a =>
      cases s with
      | left => rw [toTree, find_below_left hn _ _ _ hbelow]; rfl
      | right => rw [toTree, find_below_right hn _ _ _ hbelow]; rfl
    | node o l r =>
      cases s with
      | left => rw [toTree, find_below_left hn _ _ _ hbelow]; exact ih l hchild
      | right => rw [toTree, find_below_right hn _ _ _ hbelow]; exact ih r hchild

theorem get_heap_route (e : OpExpr) {i : Nat} (hi : 1 ≤ i) :
    (heap (toTree e)).get i = ((e.sub (route i)).map root).getD null := by
  rw [get_heap, ← find_toTree_index e le_rfl, index_route hi]

/-! ## Writes -/

theorem loopIndices_nodup (vs : List String) {s : Regen} (h : Vacant s.tree s.slots) :
    (∀ i ∈ loopIndices vs s, ∃ n ∈ s.slots, Below n i) ∧ (loopIndices vs s).Nodup := by
  -- The arguments of `add` are the slots that `emptyBranch` and `parent` keep open, or indices
  -- below them. The slots are apart, so no argument comes twice.
  induction vs generalizing s with
  | nil => exact ⟨by simp [loopIndices], List.nodup_nil⟩
  | cons v vs ih =>
    rw [loopIndices]
    cases hslots : s.slots with
    | nil =>
      rw [nextIndex_nil hslots, regenStep_no_slots hslots]
      exact ⟨by simp [after], List.nodup_nil⟩
    | cons n ns =>
      rw [hslots] at h
      obtain ⟨eb, hslot, -⟩ := slot_of_slots hslots
      rw [nextIndex_slot hslot]
      cases hstep : regenStep s v with
      | error f =>
        refine ⟨fun i hi => ⟨n, List.mem_cons_self, ?_⟩, by simp [after]⟩
        rw [List.mem_singleton.mp hi]
        exact below_self n
      | ok s1 =>
        obtain ⟨n', ns', hslots', htree, hslots1⟩ := slots_of_regenStep hstep
        obtain ⟨rfl, rfl⟩ := List.cons.inj (hslots.symm.trans hslots')
        have h1 := h.next v
        rw [← htree, ← hslots1] at h1
        obtain ⟨hbelow, hnodup⟩ := ih h1
        rw [after_ok, List.singleton_append]
        refine ⟨fun i hi => ?_, List.nodup_cons.mpr ⟨fun hn => ?_, hnodup⟩⟩
        · rcases List.mem_cons.mp hi with rfl | hi
          · exact ⟨i, List.mem_cons_self, below_self i⟩
          · obtain ⟨m, hm, hmi⟩ := hbelow i hi
            rw [hslots1] at hm
            rcases mem_nextSlots hm with hchild | hm
            · exact ⟨n, List.mem_cons_self, hmi.of_child hchild⟩
            · exact ⟨m, List.mem_cons_of_mem n hm, hmi⟩
        · obtain ⟨m, hm, hmn⟩ := hbelow n hn
          rw [hslots1] at hm
          rcases mem_nextSlots hm with hchild | hm
          · have hle := hmn.le
            have hpos := h.pos n List.mem_cons_self
            omega
          · exact (List.pairwise_cons.mp h.apart).1 m hm n (below_self n) hmn

theorem regenerateIndices_nodup (stack : List String) :
    (∀ i ∈ regenerateIndices stack, 1 ≤ i) ∧ (regenerateIndices stack).Nodup := by
  unfold regenerateIndices
  rcases stack.reverse with _ | ⟨v, rest⟩
  · exact ⟨by simp, List.nodup_nil⟩
  · obtain ⟨hbelow, hnodup⟩ :=
      loopIndices_nodup rest (s := ⟨({} : ExprTree).add 1 v, [], true, 1⟩) (vacant_root v)
    have htwo : ∀ i ∈ loopIndices rest ⟨({} : ExprTree).add 1 v, [], true, 1⟩, 2 ≤ i := by
      intro i hi
      obtain ⟨n, hn, hni⟩ := hbelow i hi
      have hle := hni.le
      have hslot : n = 3 ∨ n = 2 := by simpa [Regen.slots] using hn
      omega
    refine ⟨fun i hi => ?_, List.nodup_cons.mpr ⟨fun hone => ?_, hnodup⟩⟩
    · rcases List.mem_cons.mp hi with rfl | hi
      · exact le_rfl
      · have := htwo i hi
        omega
    · have := htwo 1 hone
      omega

/-- One `add`, of a token at an index. -/
def write (t : ExprTree) (w : Nat × String) : ExprTree := t.add w.1 w.2

theorem loopIndices_writes {vs : List String} {s s' : Regen} (h : vs.foldlM regenStep s = .ok s') :
    (loopIndices vs s).length = vs.length ∧
      s'.tree = ((loopIndices vs s).zip vs).foldl write s.tree := by
  induction vs generalizing s with
  | nil =>
    obtain rfl := Except.ok.inj h
    exact ⟨rfl, rfl⟩
  | cons v vs ih =>
    rw [List.foldlM_cons] at h
    obtain ⟨s1, hstep, hrun⟩ := Except.bind_eq_ok.mp h
    obtain ⟨n, eb, hslot, -, htree, -⟩ := regenStep_ok hstep
    obtain ⟨hlen, hwrites⟩ := ih hrun
    rw [loopIndices, nextIndex_slot hslot, hstep, after_ok, List.singleton_append]
    refine ⟨by rw [List.length_cons, List.length_cons, hlen], ?_⟩
    rw [List.zip_cons_cons, List.foldl_cons, hwrites, htree]
    rfl

theorem regenerateIndices_writes {stack : List String} {t : ExprTree} (h : regenerate stack = .ok t) :
    (regenerateIndices stack).length = stack.length ∧
      t = ((regenerateIndices stack).zip stack.reverse).foldl write {} := by
  unfold regenerate at h
  unfold regenerateIndices
  rw [← stack.length_reverse]
  cases hrev : stack.reverse with
  | nil =>
    rw [hrev] at h
    obtain rfl := Except.ok.inj h
    exact ⟨rfl, rfl⟩
  | cons v rest =>
    rw [hrev] at h
    obtain ⟨s, hrun, h⟩ := Except.bind_eq_ok.mp h
    obtain rfl := Except.ok.inj h
    obtain ⟨hlen, hwrites⟩ := loopIndices_writes hrun
    exact ⟨by rw [List.length_cons, List.length_cons, hlen], hwrites⟩

/-! ## The size of the vector -/

theorem Grown.isGreatest {t : ExprTree} (h : Grown t) :
    IsGreatest {i | 1 ≤ i ∧ t.get i ≠ null} t.values.length := by
  refine ⟨⟨?_, h.last⟩, ?_⟩
  · by_contra hzero
    exact h.last (by rw [show t.values.length = 0 by omega]; rfl)
  · rintro i ⟨-, hi⟩
    by_contra hlt
    exact hi (get_of_length_lt (by omega))

/-- **`regenerate` builds the heap image of an expression**: at every index the token of the node
it leads to, or the null mark; the vector ends with the last node; and `add` gets a new index of
at least 1 for each token. -/
theorem regenerate_heap_image (e : OpExpr) (h : Expr.height e ≤ 30) :
    ∃ t, regenerate (tokens e) = .ok t ∧
      (∀ i, 1 ≤ i → t.get i = ((e.sub (route i)).map root).getD null) ∧
      IsGreatest {i | 1 ≤ i ∧ t.get i ≠ null} t.values.length ∧
      t = ((regenerateIndices (tokens e)).zip (tokens e).reverse).foldl write {} ∧
      (regenerateIndices (tokens e)).length = (tokens e).length ∧
      (∀ i ∈ regenerateIndices (tokens e), 1 ≤ i) ∧ (regenerateIndices (tokens e)).Nodup := by
  have ht := regenerate_tokens e h
  obtain ⟨hgrown, -⟩ := growing_regenerate (Expr.code_ne_nil _ _ e) (tokens_ne_null e) ht
  obtain ⟨hlen, hwrites⟩ := regenerateIndices_writes ht
  obtain ⟨hpos, hnodup⟩ := regenerateIndices_nodup (tokens e)
  exact ⟨_, ht, fun i hi => get_heap_route e hi, hgrown.isGreatest, hwrites, hlen, hpos, hnodup⟩

/-- `1 - 2 * 3`: the 3 lies at index 7, and there is no node at index 5. -/
theorem heap_image_of_difference :
    ∃ t, regenerate ["1", "2", "3", "MULTIPLY", "SUBTRACT"] = .ok t ∧
      t.get 5 = null ∧ t.get 7 = "3" ∧ IsGreatest {i | 1 ≤ i ∧ t.get i ≠ null} t.values.length := by
  obtain ⟨t, ht, hget, hgreatest, -⟩ := regenerate_heap_image
    (.node .subtract (.leaf (.ofNumeral "1" rfl))
      (.node .multiply (.leaf (.ofNumeral "2" rfl)) (.leaf (.ofNumeral "3" rfl))))
    (by decide)
  refine ⟨t, ht, ?_, ?_, hgreatest⟩
  · rw [hget 5 (by omega)]
    simp [route, Expr.sub]
  · rw [hget 7 (by omega)]
    simp [route, Expr.sub, root, Operand.ofNumeral]

end DispCalc.ExprTree
