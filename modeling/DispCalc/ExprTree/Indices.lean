import DispCalc.ExprTree.Slots

/-!
# Indices

The indices that `regenerate`, `toStack` and `chunk` compute with `leftN`, `rightN` and `rootN`
and pass to `add` and `get`, in this order. On an expression they all fit into `int` exactly
when it is at most 30 high.
-/

open Postfix Layout

namespace DispCalc.ExprTree

open OpExpr

def InRange (i : Nat) : Prop := 1 ≤ i ∧ i ≤ 2147483647

/-- What follows a step that returned. -/
def after {α : Type} (x : Except Fault α) (f : α → List Nat) : List Nat :=
  match x with
  | .ok a => f a
  | .error _ => []

theorem after_ok {α : Type} (a : α) (f : α → List Nat) : after (.ok a) f = f a := rfl

theorem mem_after {α : Type} {x : Except Fault α} {f : α → List Nat} {i : Nat} :
    i ∈ after x f ↔ ∃ a, x = .ok a ∧ i ∈ f a := by
  unfold after
  cases x with
  | ok a => simp
  | error e => simp

theorem forall_mem_after {α : Type} {x : Except Fault α} {f : α → List Nat}
    (h : ∀ a, ∀ i ∈ f a, InRange i) : ∀ i ∈ after x f, InRange i := by
  intro i hi
  obtain ⟨a, -, ha⟩ := mem_after.mp hi
  exact h a i ha

/-! ## `regenerate` -/

/-- The argument of `add` in the next iteration. What `parentN` gives is left out: the next
iteration overwrites it (`regenStep_parent`). -/
def nextIndex (s : Regen) : List Nat :=
  if s.wasOp then [s.parent * 2 + 1] else (s.emptyBranch.take 1).map (· * 2)

theorem regenStep_parent {s : Regen} (h : s.wasOp = false) (p : Nat) (v : String) :
    regenStep { s with parent := p } v = regenStep s v := by
  unfold regenStep
  rw [h]
  rfl

def loopIndices : List String → Regen → List Nat
  | [], _ => []
  | v :: vs, s => nextIndex s ++ after (regenStep s v) (loopIndices vs)

def regenerateIndices (stack : List String) : List Nat :=
  match stack.reverse with
  | [] => []
  | v :: rest => 1 :: loopIndices rest ⟨({} : ExprTree).add 1 v, [], true, 1⟩

theorem nextIndex_slot {s : Regen} {n : Nat} {eb : List Nat} (h : Slot s n eb) : nextIndex s = [n] := by
  unfold nextIndex
  rcases h with ⟨hop, rfl, -⟩ | ⟨hop, p, heb, rfl⟩
  · rw [hop, if_pos rfl, Nat.mul_comm]
  · rw [hop, heb, if_neg Bool.false_ne_true, Nat.mul_comm]
    rfl

theorem nextIndex_nil {s : Regen} (h : s.slots = []) : nextIndex s = [] := by
  unfold nextIndex
  unfold Regen.slots at h
  cases hop : s.wasOp with
  | true => simp [hop] at h
  | false =>
    have heb : s.emptyBranch = [] := by simpa [hop] using h
    rw [heb]
    rfl

theorem loopIndices_inRange {vs : List String} {s : Regen} {ks : List Nat} (h : OnLevels s.slots ks)
    (hvs : Shallow 29 ks vs) : ∀ i ∈ loopIndices vs s, InRange i := by
  induction vs generalizing s ks with
  | nil => simp [loopIndices]
  | cons v vs ih =>
    intro i hi
    rw [loopIndices, List.mem_append] at hi
    cases hslots : s.slots with
    | nil =>
      rw [nextIndex_nil hslots, regenStep_no_slots hslots] at hi
      simp [after] at hi
    | cons n ns =>
      rw [hslots] at h
      obtain ⟨k, ks, rfl⟩ : ∃ k ks', ks = k :: ks' := ⟨_, _, h.levels.symm⟩
      obtain ⟨s1, hstep, hslots1⟩ := regenStep_slots hslots h.head_le v
      obtain ⟨eb, hslot, -⟩ := slot_of_slots hslots
      rw [nextIndex_slot hslot, List.mem_singleton, mem_after] at hi
      rcases hi with rfl | ⟨s1', hs1', hi⟩
      · exact ⟨h.pos i List.mem_cons_self, h.head_le⟩
      · obtain rfl := Except.ok.inj (hstep.symm.trans hs1')
        obtain ⟨ks1, h1, hvs1⟩ := h.next hvs
        exact ih (hslots1 ▸ h1) hvs1 i hi

theorem shallow_tokens (e : OpExpr) {m k : Nat} (hk : k ≤ m + 1) (ks : List Nat) (vs : List String) :
    Shallow m (k :: ks) ((tokens e).reverse ++ vs) ↔ k + Expr.height e ≤ m + 1 ∧ Shallow m ks vs := by
  induction e generalizing k ks vs with
  | leaf a => simp [Shallow, a.notOp, hk]
  | node o l r ihl ihr =>
    rw [reverse_tokens_node, List.cons_append, List.append_assoc, Shallow, if_pos (isOp_name o),
      Expr.height_node]
    by_cases hkm : k ≤ m
    · rw [ihr (by omega), ihl (by omega)]
      constructor
      · rintro ⟨-, hr, hl, hvs⟩
        exact ⟨by omega, hvs⟩
      · rintro ⟨hle, hvs⟩
        exact ⟨hkm, by omega, by omega, hvs⟩
    · constructor
      · rintro ⟨hle, -⟩
        exact absurd hle hkm
      · rintro ⟨hle, -⟩
        omega

theorem regenerateIndices_inRange {e : OpExpr} (h : Expr.height e ≤ 30) :
    ∀ i ∈ regenerateIndices (tokens e), InRange i := by
  have hone : InRange 1 := ⟨le_rfl, by omega⟩
  cases e with
  | leaf a => simpa [regenerateIndices, loopIndices] using hone
  | node o l r =>
    rw [Expr.height_node] at h
    have hl : Shallow 29 [1] (tokens l).reverse := by
      rw [← List.append_nil (tokens l).reverse]
      exact (shallow_tokens l (by omega) _ _).mpr ⟨by omega, trivial⟩
    have hshallow : Shallow 29 [1, 1] ((tokens r).reverse ++ (tokens l).reverse) :=
      (shallow_tokens r (by omega) _ _).mpr ⟨by omega, hl⟩
    rw [regenerateIndices, reverse_tokens_node]
    simp only [List.forall_mem_cons]
    exact ⟨hone, loopIndices_inRange (onLevels_root o.name) hshallow⟩

theorem loopIndices_append (vs ws : List String) (s : Regen) :
    loopIndices (vs ++ ws) s = loopIndices vs s ++ after (vs.foldlM regenStep s) (loopIndices ws) := by
  induction vs generalizing s with
  | nil => rfl
  | cons v vs ih =>
    rw [List.cons_append, loopIndices, loopIndices, List.foldlM_cons]
    cases regenStep s v with
    | error f => simp [after]
    | ok s1 =>
      simp only [after, Except.ok_bind, ih, List.append_assoc]

theorem exists_run_of_indices (e : OpExpr) {s : Regen} {n : Nat} {eb : List Nat} (h : Slot s n eb)
    (hall : ∀ i ∈ loopIndices (tokens e).reverse s, InRange i) :
    ∃ s', (tokens e).reverse.foldlM regenStep s = .ok s' := by
  induction e generalizing s n eb with
  | leaf a =>
    have hn : n ≤ 2147483647 := (hall n (by simp [loopIndices, nextIndex_slot h])).2
    obtain ⟨s', hstep, -⟩ := regenStep_slot h hn a.text
    exact ⟨s', Except.foldlM_cons_eq_ok.mpr ⟨s', hstep, rfl⟩⟩
  | node o l r ihl ihr =>
    rw [reverse_tokens_node] at hall ⊢
    rw [loopIndices, nextIndex_slot h, List.forall_mem_append] at hall
    obtain ⟨hhead, hrest⟩ := hall
    obtain ⟨s1, hstep, -, heb1, hop1, hpar1⟩ := regenStep_slot h (hhead n List.mem_cons_self).2 o.name
    rw [hstep, after_ok, loopIndices_append, List.forall_mem_append] at hrest
    have hslotr := slot_right (by rw [hop1, isOp_name]) (hpar1 (isOp_name o)) heb1
    obtain ⟨s2, hrun2⟩ := ihr hslotr hrest.1
    obtain ⟨-, heb2, hop2⟩ := regen_tokens_of_ok r hslotr hrun2
    rw [hrun2, after_ok] at hrest
    obtain ⟨s3, hrun3⟩ := ihl (slot_left hop2 heb2) hrest.2
    exact ⟨s3, Except.foldlM_cons_eq_ok.mpr ⟨s1, hstep, Except.foldlM_append_eq_ok.mpr ⟨s2, hrun2, hrun3⟩⟩⟩

theorem height_le_of_indices {e : OpExpr} (hall : ∀ i ∈ regenerateIndices (tokens e), InRange i) :
    Expr.height e ≤ 30 := by
  cases e with
  | leaf a => simp
  | node o l r =>
    rw [regenerateIndices, reverse_tokens_node] at hall
    simp only [List.forall_mem_cons, loopIndices_append, List.forall_mem_append] at hall
    obtain ⟨-, hr, hl⟩ := hall
    have hslotr : Slot ⟨({} : ExprTree).add 1 o.name, [], true, 1⟩ (2 * 1 + 1) [1] :=
      slot_right rfl rfl rfl
    obtain ⟨s2, hrun2⟩ := exists_run_of_indices r hslotr hr
    obtain ⟨-, heb2, hop2⟩ := regen_tokens_of_ok r hslotr hrun2
    rw [hrun2, after_ok] at hl
    obtain ⟨s3, hrun3⟩ := exists_run_of_indices l (slot_left hop2 heb2) hl
    have hright := room_of_ok r hslotr hrun2
    have hleft := room_of_ok l (slot_left hop2 heb2) hrun3
    have hle : ∀ {c h : Nat}, 2 ≤ c → c * 2 ^ h ≤ 2147483647 → h + 1 ≤ 30 := by
      intro c h hc hbound
      have hpow : 2 ^ (h + 1) < 2 ^ 31 := by
        calc 2 ^ (h + 1) = 2 * 2 ^ h := pow_succ' 2 h
          _ ≤ c * 2 ^ h := Nat.mul_le_mul_right _ hc
          _ < 2 ^ 31 := by omega
      have := (Nat.pow_lt_pow_iff_right (by omega : 1 < 2)).mp hpow
      omega
    rw [Expr.height_node]
    exact Nat.succ_le_of_lt (max_lt (hle (by omega) hleft) (hle (by omega) hright))

/-! ## `toStack` -/

/-- Bounded as `toStackFrom` is. -/
def toStackIndicesFrom (t : ExprTree) : Nat → Nat → List Nat
  | 0, nth => [nth]
  | depth + 1, nth =>
    nth :: if isOp (t.get nth) then
      nth * 2 :: (if t.get (nth * 2) ≠ null then toStackIndicesFrom t depth (nth * 2) else []) ++
      (nth * 2 + 1) ::
        (if t.get (nth * 2 + 1) ≠ null then toStackIndicesFrom t depth (nth * 2 + 1) else [])
    else []

def toStackIndices (t : ExprTree) (nth : Nat) : List Nat :=
  toStackIndicesFrom t (t.values.length + 1) nth

theorem toStackIndices_inRange (depth : Nat) {t : ExprTree} {e : OpExpr} {n : Nat} (hn : 1 ≤ n)
    (h : Contains t (toTree e) n) (hroom : Room n (toTree e)) :
    ∀ i ∈ toStackIndicesFrom t depth n, InRange i := by
  have hself : InRange n := ⟨hn, hroom.index (toTree_ne_nil e)⟩
  have hroot := h.root hn
  induction depth generalizing e n with
  | zero => simpa [toStackIndicesFrom] using hself
  | succ depth ih =>
    cases e with
    | leaf a =>
      have ha : isOp (t.get n) = false := by rw [hroot]; exact a.notOp
      simpa [toStackIndicesFrom, ha] using hself
    | node o l r =>
      have hrooml : Room (n * 2) (toTree l) := by
        rw [Nat.mul_comm]
        exact hroom.left
      have hroomr : Room (n * 2 + 1) (toTree r) := by
        rw [Nat.mul_comm]
        exact hroom.right
      have hselfl : InRange (n * 2) := ⟨by omega, hrooml.index (toTree_ne_nil l)⟩
      have hselfr : InRange (n * 2 + 1) := ⟨by omega, hroomr.index (toTree_ne_nil r)⟩
      have hleft := ih (e := l) (by omega) h.left hrooml hselfl (Contains.root h.left (by omega))
      have hright := ih (e := r) (by omega) (h.right hn) hroomr hselfr
        (Contains.root (h.right hn) (by omega))
      rw [toStackIndicesFrom, hroot]
      simp only [root, isOp_name, if_true, List.cons_append, List.forall_mem_cons,
        List.forall_mem_append]
      refine ⟨hself, hselfl, ?_, hselfr, ?_⟩
      · split
        · exact hleft
        · simp
      · split
        · exact hright
        · simp

/-! ## `chunk` -/

/-- Bounded as `chunkFrom` is. -/
def chunkIndicesFrom (maxH : Int) : Nat → ExprTree → List Nat
  | 0, _ => []
  | depth + 1, t =>
    if t.height ≤ maxH then []
    else
      2 :: toStackIndices t 2 ++ regenerateIndices (t.toStack 2) ++
      after (regenerate (t.toStack 2)) fun e1 =>
        chunkIndicesFrom maxH depth e1 ++ after (chunkFrom maxH depth e1) fun _ =>
          3 :: toStackIndices t 3 ++ regenerateIndices (t.toStack 3) ++
          after (regenerate (t.toStack 3)) fun e2 =>
            chunkIndicesFrom maxH depth e2 ++ after (chunkFrom maxH depth e2) fun _ => [1, 1]

def chunkIndices (t : ExprTree) (maxH : Int) : List Nat :=
  chunkIndicesFrom maxH (t.values.length + 1) t

theorem chunkIndices_inRange {e : OpExpr} (h : Expr.height e ≤ 30) (maxH : Int) (hmaxH : 0 ≤ maxH)
    (depth : Nat) : ∀ i ∈ chunkIndicesFrom maxH depth (heap (toTree e)), InRange i := by
  induction depth generalizing e with
  | zero => simp [chunkIndicesFrom]
  | succ depth ih =>
    rw [chunkIndicesFrom]
    split
    · simp
    · rename_i hlt
      rw [height_heap_toTree] at hlt
      cases e with
      | leaf a => exact absurd hmaxH hlt
      | node o l r =>
        rw [Expr.height_node] at h
        have hl := regenerate_tokens l (by omega)
        have hr := regenerate_tokens r (by omega)
        have hroom : Room 1 (toTree (.node o l r)) :=
          room_one (by rw [height_toTree, Expr.height_node]; omega)
        have hleft : ∀ i ∈ toStackIndices (heap (toTree (.node o l r))) 2, InRange i :=
          toStackIndices_inRange _ (e := l) (by omega) (contains_heap _).left hroom.left
        have hright : ∀ i ∈ toStackIndices (heap (toTree (.node o l r))) 3, InRange i :=
          toStackIndices_inRange _ (e := r) (by omega) ((contains_heap _).right le_rfl) hroom.right
        rw [toTree] at hleft hright ⊢
        rw [toStack_left, toStack_right, hl, hr]
        simp only [List.cons_append, List.forall_mem_cons, List.forall_mem_append, after_ok]
        refine ⟨⟨by omega, by omega⟩, ⟨hleft, regenerateIndices_inRange (by omega)⟩,
          ih (by omega), forall_mem_after fun _ => ?_⟩
        simp only [List.forall_mem_cons, List.forall_mem_append]
        refine ⟨⟨by omega, by omega⟩, ⟨hright, regenerateIndices_inRange (by omega)⟩,
          ih (by omega), forall_mem_after fun _ => ?_⟩
        simp only [List.forall_mem_cons]
        exact ⟨⟨by omega, by omega⟩, ⟨by omega, by omega⟩, by simp⟩

/-- Every index is one of the vector, while the tree of the list is built and while it is cut. -/
structure IndicesInRange (stack : List String) : Prop where
  regenerate : ∀ i ∈ regenerateIndices stack, InRange i
  chunk : ∀ t, ExprTree.regenerate stack = .ok t → ∀ maxH : Int, 0 ≤ maxH →
    ∀ i ∈ chunkIndices t maxH, InRange i

theorem indicesInRange_iff (e : OpExpr) : IndicesInRange (tokens e) ↔ Expr.height e ≤ 30 := by
  constructor
  · intro h
    exact height_le_of_indices h.regenerate
  · intro h
    refine ⟨regenerateIndices_inRange h, fun t ht maxH hmaxH => ?_⟩
    obtain rfl := Except.ok.inj ((regenerate_tokens e h).symm.trans ht)
    exact chunkIndices_inRange h maxH hmaxH _

end DispCalc.ExprTree
