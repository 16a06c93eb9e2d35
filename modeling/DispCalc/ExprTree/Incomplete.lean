import DispCalc.ExprTree.Forest
import DispCalc.ExprTree.Image

/-!
# Incomplete lists

Whatever list `regenerate` accepts, the tree has a root with two operands below it, of which one
may be begun only. Cutting such a tree ends, as the trees it rebuilds are lower and of the same kind.
-/

open Postfix Layout

namespace DispCalc.ExprTree

/-! ## `regenerate` -/

theorem regen_begun_of_ok {T : BinaryTree String} (hT : Begun isOp T) {s s' : Regen} {n : Nat}
    {eb : List Nat} (h : Slot s n eb) (hrun : (reading T).foldlM regenStep s = .ok s') :
    s'.tree = plant s.tree n T := by
  induction hT generalizing s s' n eb with
  | nil =>
    obtain rfl := Except.ok.inj hrun
    rfl
  | operand hv => exact (regen_full_of_ok (.operand hv) h hrun).1
  | @right v r hv hr ih =>
    rw [reading, reading, List.append_nil] at hrun
    obtain ⟨s1, h1, hrun⟩ := Except.foldlM_cons_eq_ok.mp hrun
    obtain ⟨-, htree1, heb1, hop1, hpar1⟩ := h.step_ok h1
    rw [ih (slot_right (by rw [hop1, hv]) (hpar1 hv) heb1) hrun, htree1]
    rfl
  | @left v l r hv hl hr ih =>
    rw [reading] at hrun
    obtain ⟨s1, h1, hrun⟩ := Except.foldlM_cons_eq_ok.mp hrun
    obtain ⟨s2, h2, hrun⟩ := Except.foldlM_append_eq_ok.mp hrun
    obtain ⟨-, htree1, heb1, hop1, hpar1⟩ := h.step_ok h1
    obtain ⟨htree2, heb2, hop2⟩ :=
      regen_full_of_ok hr (slot_right (by rw [hop1, hv]) (hpar1 hv) heb1) h2
    rw [ih (slot_left hop2 heb2) hrun, htree2, htree1]
    rfl

theorem exists_heap {stack : List String} (hne : stack ≠ []) {t : ExprTree}
    (h : regenerate stack = .ok t) :
    ∃ v l r, stack.reverse = reading (.node v l r) ∧ Operands isOp l r ∧ t = heap (.node v l r) := by
  obtain ⟨v, vs, hrev⟩ := List.exists_cons_of_ne_nil (List.reverse_ne_nil_iff.mpr hne)
  have hslot : Slot ⟨({} : ExprTree).add 1 v, [], true, 1⟩ (2 * 1 + 1) [1] := slot_right rfl rfl rfl
  obtain ⟨l, r, rest, hvs, hoperands, hrest⟩ := exists_operands isOp vs
  rw [regenerate, hrev, hvs] at h
  obtain ⟨s, hrun, h⟩ := Except.bind_eq_ok.mp h
  obtain rfl := Except.ok.inj h
  obtain ⟨s2, hread, hlast⟩ := Except.foldlM_append_eq_ok.mp hrun
  obtain ⟨s1, h1, h2⟩ := Except.foldlM_append_eq_ok.mp hread
  have hnil : rest = [] := by
    by_contra hne
    obtain ⟨hl, hr⟩ := hrest hne
    obtain ⟨-, heb1, hop1⟩ := regen_full_of_ok hr hslot h1
    obtain ⟨-, heb2, hop2⟩ := regen_full_of_ok hl (slot_left hop1 heb1) h2
    rw [foldlM_stuck hop2 heb2 hne] at hlast
    cases hlast
  subst hnil
  obtain rfl := Except.ok.inj hlast
  refine ⟨v, l, r, by rw [hrev, hvs, List.append_nil, reading], hoperands, ?_⟩
  rcases hoperands with ⟨rfl, hr⟩ | ⟨hl, hr⟩
  · obtain rfl := Except.ok.inj h2
    rw [regen_begun_of_ok hr hslot h1]
    rfl
  · obtain ⟨htree1, heb1, hop1⟩ := regen_full_of_ok hr hslot h1
    rw [regen_begun_of_ok hl (slot_left hop1 heb1) h2, htree1]
    rfl

/-! ## `toStack` -/

theorem stackAt_begun {T : BinaryTree String} (hT : Begun isOp T) (hnull : ∀ v ∈ reading T, v ≠ null)
    {t : ExprTree} {n : Nat} (hn : 1 ≤ n) (h : ∀ i, Below n i → t.get i = (find T n i).getD null) :
    stackAt t n = (reading T).reverse := by
  induction T generalizing n with
  | nil => exact if_pos (h n (below_self n))
  | node v l r ihl ihr =>
    have hroot : t.get n = v := by
      rw [h n (below_self n), find_root hn]
      rfl
    have hstack : stackAt t n = t.toStack n :=
      if_neg (by rw [hroot]; exact hnull v List.mem_cons_self)
    rw [reading, List.forall_mem_cons, List.forall_mem_append] at hnull
    rw [hstack]
    by_cases hv : isOp v = true
    · obtain ⟨hl, hr⟩ := hT.operands.begun
      have hleft := ihl hl hnull.2.2 (n := 2 * n) (by omega) fun i hi => by
        rw [h i (hi.of_child (by omega)), find_below_left hn _ _ _ hi]
      have hright := ihr hr hnull.2.1 (n := 2 * n + 1) (by omega) fun i hi => by
        rw [h i (hi.of_child (by omega)), find_below_right hn _ _ _ hi]
      rw [toStack_operator hn (by rw [hroot, hv]), hleft, hright, hroot, reading]
      simp
    · rw [Bool.not_eq_true] at hv
      obtain ⟨rfl, rfl⟩ := hT.leaf hv
      rw [toStack_of_not_isOp hn (by rw [hroot, hv]), hroot]
      rfl

/-! ## `chunk` -/

/-- A tree that `chunk` may meet. -/
def Cuttable (t : ExprTree) : Prop :=
  ∃ v l r, t = heap (.node v l r) ∧ (BinaryTree.node v l r).height ≤ 31 ∧ Begun isOp l ∧ Begun isOp r ∧
    ∀ x ∈ reading r ++ reading l, x ≠ null

theorem cuttable_regenerate {stack : List String} (hne : stack ≠ []) (hnull : ∀ v ∈ stack, v ≠ null)
    {t : ExprTree} (h : regenerate stack = .ok t) : Cuttable t := by
  obtain ⟨v, l, r, hrev, hoperands, rfl⟩ := exists_heap hne h
  obtain ⟨hgrown, hbound, -⟩ := growing_regenerate hne hnull h
  have hpos : 1 ≤ (heap (.node v l r)).values.length := hgrown.isGreatest.1.1
  obtain ⟨height, hheight, hle⟩ := height_natural hpos hbound
  rw [height_heap (by simp)] at hheight
  obtain ⟨hl, hr⟩ := hoperands.begun
  refine ⟨v, l, r, rfl, by omega, hl, hr, fun x hx => hnull x ?_⟩
  rw [← List.mem_reverse, hrev]
  exact List.mem_cons_of_mem v hx

theorem exists_rebuilt {T : BinaryTree String} (hT : Begun isOp T) (hnull : ∀ v ∈ reading T, v ≠ null)
    (hheight : T.height ≤ 31) {t : ExprTree} {n : Nat} (hn : 1 ≤ n)
    (h : ∀ i, Below n i → t.get i = (find T n i).getD null) :
    ∃ u, regenerate (t.toStack n) = .ok u ∧ Cuttable u ∧ u.height = ((T.height - 1 : Nat) : Int) := by
  -- `chunk` rebuilds the tree of the slot `n`, which may be empty.
  cases T with
  | nil =>
    have hempty : t.get n = null := h n (below_self n)
    refine ⟨heap (.node null .nil .nil), ?_, ⟨null, .nil, .nil, rfl, by simp, .nil, .nil, by simp [reading]⟩,
      height_heap (by simp)⟩
    rw [toStack_of_not_isOp hn (by rw [hempty]; exact isOp_null), hempty]
    rfl
  | node v l r =>
    have hstack : stackAt t n = t.toStack n := by
      refine if_neg ?_
      rw [h n (below_self n), find_root hn]
      exact hnull v List.mem_cons_self
    obtain ⟨hl, hr⟩ := hT.operands.begun
    refine ⟨heap (.node v l r), ?_, ⟨v, l, r, rfl, hheight, hl, hr, fun x hx => ?_⟩, height_heap (by simp)⟩
    · rw [← hstack, stackAt_begun hT hnull hn h, regenerate_reading v hT.operands (room_one hheight)]
    · exact hnull x (List.mem_cons_of_mem v hx)

/-- A call of `chunk` on `t` calls it on `u`. -/
def Calls (maxH : Int) (t u : ExprTree) : Prop :=
  maxH < t.height ∧ (regenerate (t.toStack 2) = .ok u ∨ regenerate (t.toStack 3) = .ok u)

theorem Cuttable.operands {t : ExprTree} (h : Cuttable t) :
    ∃ u2 u3, regenerate (t.toStack 2) = .ok u2 ∧ regenerate (t.toStack 3) = .ok u3 ∧
      (Cuttable u2 ∧ (1 ≤ t.height → u2.height < t.height)) ∧
      Cuttable u3 ∧ (1 ≤ t.height → u3.height < t.height) := by
  obtain ⟨v, l, r, rfl, hheight, hl, hr, hnull⟩ := h
  rw [height_heap (by simp)]
  simp only [BinaryTree.height, Nat.add_sub_cancel] at hheight ⊢
  rw [List.forall_mem_append] at hnull
  obtain ⟨u2, h2, hcut2, hheight2⟩ := exists_rebuilt hl hnull.2 (by omega) (n := 2) (by omega)
    fun i hi => by rw [get_heap, find_below_left (n := 1) le_rfl v l r hi]
  obtain ⟨u3, h3, hcut3, hheight3⟩ := exists_rebuilt hr hnull.1 (by omega) (n := 3) (by omega)
    fun i hi => by rw [get_heap, find_below_right (n := 1) le_rfl v l r hi]
  exact ⟨u2, u3, h2, h3, ⟨hcut2, fun hpos => by omega⟩, hcut3, fun hpos => by omega⟩

theorem Cuttable.calls {t u : ExprTree} {maxH : Int} (h : Cuttable t) (hmaxH : 0 ≤ maxH)
    (hcall : Calls maxH t u) : Cuttable u ∧ u.height < t.height := by
  obtain ⟨hlt, hu⟩ := hcall
  obtain ⟨u2, u3, h2, h3, ⟨hcut2, hlt2⟩, hcut3, hlt3⟩ := h.operands
  rcases hu with hu | hu
  · obtain rfl := Except.ok.inj (h2.symm.trans hu)
    exact ⟨hcut2, hlt2 (by omega)⟩
  · obtain rfl := Except.ok.inj (h3.symm.trans hu)
    exact ⟨hcut3, hlt3 (by omega)⟩

theorem Cuttable.height_nonneg {t : ExprTree} (h : Cuttable t) : 0 ≤ t.height := by
  obtain ⟨v, l, r, rfl, -⟩ := h
  rw [height_heap (by simp)]
  exact Int.natCast_nonneg _

theorem Cuttable.acc_calls {t : ExprTree} {maxH : Int} (h : Cuttable t) (hmaxH : 0 ≤ maxH) :
    Acc (fun u t => Calls maxH t u) t := by
  induction hk : t.height.toNat using Nat.strongRecOn generalizing t with
  | _ k ih =>
    refine Acc.intro t fun u hcall => ?_
    obtain ⟨hu, hlt⟩ := h.calls hmaxH hcall
    have hnonneg := hu.height_nonneg
    exact ih u.height.toNat (by omega) hu rfl

theorem Cuttable.chunkFrom_returns {t : ExprTree} {maxH : Int} (h : Cuttable t) (hmaxH : 0 ≤ maxH)
    {depth : Nat} (hdepth : t.height < depth) : ∃ l, chunkFrom maxH depth t = .ok l := by
  induction depth generalizing t with
  | zero =>
    have := h.height_nonneg
    omega
  | succ depth ih =>
    rcases Int.lt_or_le maxH t.height with hlt | hle
    · obtain ⟨u2, u3, h2, h3, ⟨hcut2, hlt2⟩, hcut3, hlt3⟩ := h.operands
      have hlow2 := hlt2 (by omega)
      have hlow3 := hlt3 (by omega)
      obtain ⟨l2, hl2⟩ := ih hcut2 (by omega)
      obtain ⟨l3, hl3⟩ := ih hcut3 (by omega)
      exact ⟨_, (chunkFrom_of_lt hlt).mpr ⟨u2, l2, u3, l3, h2, hl2, h3, hl3, rfl⟩⟩
    · exact ⟨[t], by rw [chunkFrom, if_pos hle]⟩

theorem Cuttable.chunk_returns {t : ExprTree} {maxH : Int} (h : Cuttable t) (hmaxH : 0 ≤ maxH) :
    ∃ l, t.chunk maxH = .ok l := by
  refine h.chunkFrom_returns hmaxH ?_
  obtain ⟨v, l, r, rfl, -⟩ := h
  have hlen := height_le_length (T := .node v l r) (by simp)
  rw [height_heap (by simp)]
  omega

end DispCalc.ExprTree
