import DispCalc.ExprTree.Cut

/-!
# Trees of any token list

What `regenerate` builds when it does not fail, from an expression or not, and that cutting a
tree of two or more nodes never leaves single tokens only.
-/

open Postfix Layout

namespace DispCalc.ExprTree

/-! ## The shape that `regenerate` builds -/

/-- Each node below the root hangs from an operator or from the root, and the vector ends
with a node. -/
structure Grown (t : ExprTree) : Prop where
  root : t.get 1 ≠ null
  last : t.get t.values.length ≠ null
  parents : ∀ i, 2 ≤ i → t.get i ≠ null → isOp (t.get (i / 2)) = true ∨ i / 2 = 1

/-- `p` may get a left child. -/
def Open (t : ExprTree) (p : Nat) : Prop :=
  1 ≤ p ∧ t.get (2 * p) = null ∧ (isOp (t.get p) = true ∨ p = 1)

/-- The state of `regenerate` between two tokens. -/
structure Growing (s : Regen) : Prop where
  grown : Grown s.tree
  branch : ∀ p ∈ s.emptyBranch, Open s.tree p
  nodup : s.emptyBranch.Nodup
  bound : s.tree.values.length ≤ 2147483647
  operator : s.wasOp = true →
    Open s.tree s.parent ∧ s.tree.get (2 * s.parent + 1) = null ∧ s.parent ∉ s.emptyBranch

/-- A slot that may be filled next. -/
structure Free (t : ExprTree) (n : Nat) : Prop where
  two_le : 2 ≤ n
  empty : t.get n = null
  parent : isOp (t.get (n / 2)) = true ∨ n / 2 = 1

theorem Free.ne_of_op {t : ExprTree} {n : Nat} (h : Free t n) {p : Nat}
    (hp : isOp (t.get p) = true ∨ p = 1) : p ≠ n := by
  rintro rfl
  rcases hp with hop | hp
  · rw [h.empty, isOp_null] at hop
    cases hop
  · have := h.two_le
    omega

theorem Free.child_empty {t : ExprTree} {n : Nat} (h : Free t n) (hg : Grown t) {i : Nat}
    (hi : i / 2 = n) : t.get i = null := by
  by_contra hne
  have := h.two_le
  exact h.ne_of_op (hg.parents i (by omega) hne) hi

theorem Grown.add {t : ExprTree} (h : Grown t) {n : Nat} (hn : Free t n) {v : String}
    (hv : v ≠ null) : Grown (t.add n v) := by
  have hn2 := hn.two_le
  have hget := get_add (n := n) (by omega) t v
  refine ⟨?_, ?_, fun i hi hne => ?_⟩
  · rw [hget, if_neg (by omega)]
    exact h.root
  · rw [hget, length_add]
    split
    · exact hv
    · rename_i hlast
      rw [show max t.values.length n = t.values.length by omega]
      exact h.last
  · rw [hget] at hne
    by_cases hin : i = n
    · subst hin
      rw [hget, if_neg (by omega)]
      exact hn.parent
    · rw [if_neg hin] at hne
      have hold := h.parents i hi hne
      rwa [hget, if_neg (hn.ne_of_op hold)]

theorem Open.add {t : ExprTree} {p : Nat} (h : Open t p) {n : Nat} (hn : Free t n)
    (hne : 2 * p ≠ n) (v : String) : Open (t.add n v) p := by
  have hn2 := hn.two_le
  have hget := get_add (n := n) (by omega) t v
  exact ⟨h.1, by rw [hget, if_neg hne, h.2.1], by rw [hget, if_neg (hn.ne_of_op h.2.2)]; exact h.2.2⟩

theorem regenStep_ok {s s' : Regen} {v : String} (h : regenStep s v = .ok s') :
    ∃ n eb, Slot s n eb ∧ n ≤ 2147483647 ∧ s'.tree = s.tree.add n v ∧ s'.emptyBranch = eb ∧
      s'.wasOp = isOp v ∧ (isOp v = true → s'.parent = n) := by
  have hslot : ∃ n eb, Slot s n eb ∧ n ≤ 2147483647 := by
    obtain ⟨tree, emptyBranch, wasOp, parent⟩ := s
    rcases wasOp with _ | _
    · rcases emptyBranch with _ | ⟨p, eb⟩
      · simp [regenStep] at h
      · refine ⟨2 * p, eb, Or.inr ⟨rfl, p, rfl, rfl⟩, ?_⟩
        by_contra hbound
        simp [regenStep, leftN, show ¬ p * 2 ≤ 2147483647 by omega, bind, Except.bind] at h
    · refine ⟨2 * parent + 1, parent :: emptyBranch, Or.inl ⟨rfl, rfl, rfl⟩, ?_⟩
      by_contra hbound
      simp [regenStep, rightN, show ¬ parent * 2 + 1 ≤ 2147483647 by omega, bind, Except.bind] at h
  obtain ⟨n, eb, hslot, hn⟩ := hslot
  obtain ⟨s'', hstep, hrest⟩ := regenStep_slot hslot hn v
  obtain rfl := Except.ok.inj (hstep.symm.trans h)
  exact ⟨n, eb, hslot, hn, hrest⟩

theorem Slot.unique {s : Regen} {n n' : Nat} {eb eb' : List Nat} (h : Slot s n eb)
    (h' : Slot s n' eb') : n = n' ∧ eb = eb' := by
  rcases h with ⟨hop, rfl, rfl⟩ | ⟨hop, p, heb, rfl⟩ <;>
    rcases h' with ⟨hop', rfl, rfl⟩ | ⟨hop', p', heb', rfl⟩
  · exact ⟨rfl, rfl⟩
  · simp [hop] at hop'
  · simp [hop] at hop'
  · obtain ⟨rfl, rfl⟩ := List.cons.inj (heb.symm.trans heb')
    exact ⟨rfl, rfl⟩

theorem Slot.step_ok {s s' : Regen} {n : Nat} {eb : List Nat} {v : String} (h : Slot s n eb)
    (hstep : regenStep s v = .ok s') :
    n ≤ 2147483647 ∧ s'.tree = s.tree.add n v ∧ s'.emptyBranch = eb ∧ s'.wasOp = isOp v ∧
      (isOp v = true → s'.parent = n) := by
  obtain ⟨n', eb', hslot, hrest⟩ := regenStep_ok hstep
  obtain ⟨rfl, rfl⟩ := h.unique hslot
  exact hrest

theorem regen_full_of_ok {T : BinaryTree String} (hT : Full isOp T) {s s' : Regen} {n : Nat}
    {eb : List Nat} (h : Slot s n eb) (hrun : (reading T).foldlM regenStep s = .ok s') :
    s'.tree = plant s.tree n T ∧ s'.emptyBranch = eb ∧ s'.wasOp = false := by
  induction hT generalizing s s' n eb with
  | @operand v hv =>
    obtain ⟨s1, hstep, hrun⟩ := Except.foldlM_cons_eq_ok.mp hrun
    obtain rfl : s1 = s' := Except.ok.inj hrun
    obtain ⟨-, htree, heb, hop, -⟩ := h.step_ok hstep
    exact ⟨htree, heb, by rw [hop, hv]⟩
  | @operator v l r hv hl hr ihl ihr =>
    obtain ⟨s1, h1, hrun⟩ := Except.foldlM_cons_eq_ok.mp hrun
    obtain ⟨s2, h2, hrun⟩ := Except.foldlM_append_eq_ok.mp hrun
    obtain ⟨-, htree1, heb1, hop1, hpar1⟩ := h.step_ok h1
    obtain ⟨htree2, heb2, hop2⟩ := ihr (slot_right (by rw [hop1, hv]) (hpar1 hv) heb1) h2
    obtain ⟨htree3, heb3, hop3⟩ := ihl (slot_left hop2 heb2) hrun
    exact ⟨by rw [htree3, htree2, htree1]; rfl, heb3, hop3⟩

theorem regen_tokens_of_ok (e : OpExpr) {s s' : Regen} {n : Nat} {eb : List Nat} (h : Slot s n eb)
    (hrun : (OpExpr.tokens e).reverse.foldlM regenStep s = .ok s') :
    s'.tree = plant s.tree n (OpExpr.toTree e) ∧ s'.emptyBranch = eb ∧ s'.wasOp = false := by
  rw [← reading_toTree] at hrun
  exact regen_full_of_ok (full_toTree e) h hrun

theorem room_of_ok (e : OpExpr) {s s' : Regen} {n : Nat} {eb : List Nat} (h : Slot s n eb)
    (hrun : (OpExpr.tokens e).reverse.foldlM regenStep s = .ok s') :
    n * 2 ^ Expr.height e ≤ 2147483647 := by
  induction e generalizing s s' n eb with
  | leaf a =>
    obtain ⟨s1, hstep, -⟩ := Except.foldlM_cons_eq_ok.mp hrun
    obtain ⟨hbound, -⟩ := h.step_ok hstep
    simpa using hbound
  | node o l r ihl ihr =>
    rw [OpExpr.reverse_tokens_node] at hrun
    obtain ⟨s1, hstep, hrun⟩ := Except.foldlM_cons_eq_ok.mp hrun
    obtain ⟨s2, hr, hl⟩ := Except.foldlM_append_eq_ok.mp hrun
    obtain ⟨-, -, heb, hop, hpar⟩ := h.step_ok hstep
    have hslotr := slot_right (by rw [hop, isOp_name]) (hpar (isOp_name o)) heb
    obtain ⟨-, hebr, hopr⟩ := regen_tokens_of_ok r hslotr hr
    have hright := ihr hslotr hr
    have hleft := ihl (slot_left hopr hebr) hl
    rw [Expr.height_node, pow_succ]
    rcases le_total l.height r.height with hle | hle
    · rw [max_eq_right hle]
      calc n * (2 ^ r.height * 2) = 2 * n * 2 ^ r.height := by ring
        _ ≤ (2 * n + 1) * 2 ^ r.height := Nat.mul_le_mul_right _ (by omega)
        _ ≤ 2147483647 := hright
    · rw [max_eq_left hle]
      calc n * (2 ^ l.height * 2) = 2 * n * 2 ^ l.height := by ring
        _ ≤ 2147483647 := hleft

theorem tokens_ne_null (e : OpExpr) : ∀ x ∈ OpExpr.tokens e, x ≠ null := by
  induction e with
  | leaf a =>
    intro x hx
    rw [List.mem_singleton.mp hx]
    exact a.notNull
  | node o l r ihl ihr =>
    intro x hx
    simp only [OpExpr.tokens_node, List.mem_append, List.mem_singleton] at hx
    rcases hx with (hx | hx) | rfl
    · exact ihl x hx
    · exact ihr x hx
    · rcases o <;> decide

theorem Growing.free {s : Regen} (h : Growing s) {n : Nat} {eb : List Nat} (hslot : Slot s n eb) :
    Free s.tree n ∧ eb.Nodup ∧ ∀ p ∈ eb, Open s.tree p ∧ 2 * p ≠ n := by
  rcases hslot with ⟨hop, rfl, rfl⟩ | ⟨-, p, heb, rfl⟩
  · obtain ⟨hopen, hright, hnot⟩ := h.operator hop
    have hp := hopen.1
    refine ⟨⟨by omega, hright, ?_⟩, List.nodup_cons.mpr ⟨hnot, h.nodup⟩, fun p hp => ?_⟩
    · rw [show (2 * s.parent + 1) / 2 = s.parent by omega]
      exact hopen.2.2
    · rcases List.mem_cons.mp hp with rfl | hp
      · exact ⟨hopen, by omega⟩
      · exact ⟨h.branch p hp, by omega⟩
  · have hopen := h.branch p (by simp [heb])
    have hnodup := h.nodup
    rw [heb, List.nodup_cons] at hnodup
    have hp := hopen.1
    refine ⟨⟨by omega, hopen.2.1, ?_⟩, hnodup.2, fun q hq => ⟨h.branch q (by simp [heb, hq]), ?_⟩⟩
    · rw [show 2 * p / 2 = p by omega]
      exact hopen.2.2
    · intro hqp
      exact hnodup.1 (by rwa [show p = q by omega])

theorem growing_step {s s' : Regen} (h : Growing s) {v : String} (hv : v ≠ null)
    (hstep : regenStep s v = .ok s') :
    Growing s' ∧ 2 ≤ s'.tree.values.length ∧ s'.tree.get 1 = s.tree.get 1 := by
  obtain ⟨n, eb, hslot, hbound, htree, heb, hop, hpar⟩ := regenStep_ok hstep
  obtain ⟨hfree, hnodup, hopen⟩ := h.free hslot
  have hn2 := hfree.two_le
  have hget := get_add (n := n) (by omega) s.tree v
  refine ⟨⟨by rw [htree]; exact h.grown.add hfree hv, fun p hp => ?_, by rw [heb]; exact hnodup,
    by rw [htree, length_add]; exact Nat.max_le.mpr ⟨h.bound, hbound⟩, fun hwas => ?_⟩,
    by rw [htree, length_add]; omega, by rw [htree, hget, if_neg (by omega)]⟩
  · rw [heb] at hp
    rw [htree]
    exact (hopen p hp).1.add hfree (hopen p hp).2 v
  · -- A new operator has no children yet.
    rw [hop] at hwas
    rw [hpar hwas, htree, heb]
    refine ⟨⟨by omega, ?_, Or.inl (by rw [hget, if_pos rfl, hwas])⟩, ?_, fun hmem => ?_⟩
    · rw [hget, if_neg (by omega), hfree.child_empty h.grown (by omega)]
    · rw [hget, if_neg (by omega), hfree.child_empty h.grown (by omega)]
    · exact hfree.ne_of_op (hopen n hmem).1.2.2 rfl

theorem growing_foldlM {vs : List String} (hvs : ∀ v ∈ vs, v ≠ null) {s s' : Regen} (h : Growing s)
    (hrun : vs.foldlM regenStep s = .ok s') :
    Growing s' ∧ (vs ≠ [] → 2 ≤ s'.tree.values.length) ∧ s'.tree.get 1 = s.tree.get 1 := by
  induction vs generalizing s with
  | nil =>
    obtain rfl := Except.ok.inj hrun
    exact ⟨h, fun hne => absurd rfl hne, rfl⟩
  | cons v vs ih =>
    rw [List.foldlM_cons] at hrun
    rcases hstep : regenStep s v with f | s1
    · rw [hstep] at hrun
      cases hrun
    · rw [hstep] at hrun
      obtain ⟨hs1, hlen, hroot⟩ := growing_step h (hvs v List.mem_cons_self) hstep
      obtain ⟨hs', hlen', hroot'⟩ := ih (fun u hu => hvs u (List.mem_cons_of_mem v hu)) hs1 hrun
      refine ⟨hs', fun _ => ?_, hroot'.trans hroot⟩
      rcases vs with _ | ⟨u, us⟩
      · obtain rfl := Except.ok.inj hrun
        exact hlen
      · exact hlen' (by simp)

theorem growing_root {v : String} (hv : v ≠ null) :
    Growing ⟨({} : ExprTree).add 1 v, [], true, 1⟩ := by
  have hget := get_add (n := 1) le_rfl {} v
  have hempty : ∀ i, i ≠ 1 → (({} : ExprTree).add 1 v).get i = null := fun i hi => by
    rw [hget, if_neg hi]
    rcases i with _ | i <;> rfl
  refine ⟨⟨by rw [hget]; simpa using hv, by rw [hget, length_add]; simpa using hv, fun i hi hne => ?_⟩,
    by simp, List.nodup_nil, by simp [length_add],
    fun _ => ⟨⟨le_rfl, hempty 2 (by omega), Or.inr rfl⟩, hempty 3 (by omega), by simp⟩⟩
  exact absurd (hempty i (by omega)) hne

theorem growing_regenerate {stack : List String} (hne : stack ≠ []) (hnull : ∀ v ∈ stack, v ≠ null)
    {t : ExprTree} (h : regenerate stack = .ok t) :
    Grown t ∧ t.values.length ≤ 2147483647 ∧ stack.getLast? = some (t.get 1) ∧
      (2 ≤ stack.length → 2 ≤ t.values.length) := by
  unfold regenerate at h
  obtain ⟨v, rest, hrev⟩ := List.exists_cons_of_ne_nil (List.reverse_ne_nil_iff.mpr hne)
  have hmem : ∀ u ∈ v :: rest, u ≠ null := fun u hu =>
    hnull u (by rw [← List.mem_reverse, hrev]; exact hu)
  rw [hrev] at h
  obtain ⟨s, hrun, h⟩ := Except.bind_eq_ok.mp h
  obtain rfl := Except.ok.inj h
  obtain ⟨hs, hlen, hroot⟩ := growing_foldlM (fun u hu => hmem u (List.mem_cons_of_mem v hu))
    (growing_root (hmem v List.mem_cons_self)) hrun
  refine ⟨hs.grown, hs.bound, ?_, fun htwo => hlen ?_⟩
  · rw [hroot, get_add le_rfl, if_pos rfl, ← List.head?_reverse, hrev]
    rfl
  · rintro rfl
    rw [← stack.length_reverse, hrev] at htwo
    simp at htwo

theorem grown_regenerate {stack : List String} (hnull : ∀ v ∈ stack, v ≠ null) {t : ExprTree}
    (h : regenerate stack = .ok t) (hlen : 2 ≤ stack.length) :
    Grown t ∧ 2 ≤ t.values.length ∧ t.values.length ≤ 2147483647 ∧ stack.getLast? = some (t.get 1) := by
  have hne : stack ≠ [] := by
    rintro rfl
    simp at hlen
  obtain ⟨hgrown, hbound, hlast, htwo⟩ := growing_regenerate hne hnull h
  exact ⟨hgrown, htwo hlen, hbound, hlast⟩

theorem height_natural {t : ExprTree} (hpos : 1 ≤ t.values.length)
    (hbound : t.values.length ≤ 2147483647) : ∃ h : Nat, t.height = h ∧ h ≤ 30 := by
  have hne : t.values ≠ [] := by
    intro hnil
    simp [hnil] at hpos
  refine ⟨Nat.log2 t.values.length, by rw [height, if_neg hne], ?_⟩
  have : Nat.log2 t.values.length < 31 := (Nat.log2_lt (by omega)).mpr (by omega)
  omega

theorem regenerate_tokens_of_ok {e : OpExpr} {t : ExprTree} (h : regenerate (OpExpr.tokens e) = .ok t) :
    t = heap (OpExpr.toTree e) ∧ Expr.height e ≤ 30 := by
  rcases e with a | ⟨o, l, r⟩
  · exact ⟨(Except.ok.inj h).symm, Nat.zero_le _⟩
  · have htree : t = heap (OpExpr.toTree (.node o l r)) := by
      rw [regenerate, OpExpr.reverse_tokens_node] at h
      simp only [List.foldlM_append] at h
      obtain ⟨s3, hrun, h⟩ := Except.bind_eq_ok.mp h
      obtain ⟨s2, h2, h3⟩ := Except.bind_eq_ok.mp hrun
      obtain ⟨htree2, heb2, hop2⟩ := regen_tokens_of_ok r (slot_right rfl rfl rfl) h2
      obtain ⟨htree3, -, -⟩ := regen_tokens_of_ok l (slot_left hop2 heb2) h3
      rw [← Except.ok.inj h, htree3, htree2]
      rfl
    have htwo : 2 ≤ (OpExpr.tokens (.node o l r)).length := by
      have := List.length_pos_iff.mpr (Expr.code_ne_nil Operand.text Op.name l)
      simp only [OpExpr.tokens, Expr.code, List.length_append, List.length_singleton]
      omega
    obtain ⟨-, hlen, hbound, -⟩ := grown_regenerate (tokens_ne_null _) h htwo
    obtain ⟨height, hheight, hle⟩ := height_natural (by omega) hbound
    rw [htree, height_heap_toTree] at hheight
    exact ⟨htree, by omega⟩

/-! ## What `chunk` leaves -/

theorem toStackFrom_ne_null (t : ExprTree) (depth : Nat) {n : Nat} (hn : t.get n ≠ null) :
    ∀ x ∈ toStackFrom t depth n, x ≠ null := by
  induction depth generalizing n with
  | zero => simpa [toStackFrom] using hn
  | succ depth ih =>
    intro x hx
    simp only [toStackFrom, List.mem_append, List.mem_singleton] at hx
    rcases hx with (hx | hx) | rfl
    · split at hx
      · rename_i hchild
        simp only [Bool.and_eq_true, bne_iff_ne, ne_eq] at hchild
        exact ih hchild.2 x hx
      · cases hx
    · split at hx
      · rename_i hchild
        simp only [Bool.and_eq_true, bne_iff_ne, ne_eq] at hchild
        exact ih hchild.2 x hx
      · cases hx
    · exact hn

theorem toStack_pos (t : ExprTree) (n : Nat) : 1 ≤ (t.toStack n).length := by
  simp only [toStack, toStackFrom, List.length_append, List.length_singleton]
  omega

theorem two_le_toStack {t : ExprTree} {n : Nat} (hn : 1 ≤ n) (hop : isOp (t.get n) = true)
    (hchild : t.get (n * 2) ≠ null ∨ t.get (n * 2 + 1) ≠ null) : 2 ≤ (t.toStack n).length := by
  have hl := toStack_pos t (n * 2)
  have hr := toStack_pos t (n * 2 + 1)
  rw [toStack_eq t hn]
  rcases hchild with hne | hne
  · simp only [hop, bne_iff_ne.mpr hne, Bool.and_self, if_true, List.length_append,
      List.length_singleton]
    omega
  · simp only [hop, bne_iff_ne.mpr hne, Bool.and_self, if_true, List.length_append,
      List.length_singleton]
    omega

theorem Grown.operator_below_root {t : ExprTree} (h : Grown t) {i : Nat} (hi : 4 ≤ i)
    (hne : t.get i ≠ null) :
    ∃ j, (j = 2 ∨ j = 3) ∧ isOp (t.get j) = true ∧
      (t.get (j * 2) ≠ null ∨ t.get (j * 2 + 1) ≠ null) := by
  induction i using Nat.strongRecOn with
  | _ i ih =>
    have hop : isOp (t.get (i / 2)) = true := by
      rcases h.parents i (by omega) hne with hop | hone
      · exact hop
      · omega
    rcases Nat.lt_or_ge i 8 with hlt | hge
    · refine ⟨i / 2, by omega, hop, ?_⟩
      rcases Nat.mod_two_eq_zero_or_one i with hm | hm
      · exact Or.inl (by rwa [show i / 2 * 2 = i by omega])
      · exact Or.inr (by rwa [show i / 2 * 2 + 1 = i by omega])
    · refine ih (i / 2) (by omega) (by omega) fun hnull => ?_
      rw [hnull, isOp_null] at hop
      cases hop

theorem height_pos {t : ExprTree} (h : 2 ≤ t.values.length) : 1 ≤ t.height := by
  have hne : t.values ≠ [] := by
    rintro hnil
    simp [hnil] at h
  have : 1 ≤ Nat.log2 t.values.length := (Nat.le_log2 (by omega)).mpr (by simpa using h)
  rw [height, if_neg hne]
  omega

theorem four_le_length {t : ExprTree} (h : 2 ≤ t.height) : 4 ≤ t.values.length := by
  unfold height at h
  split at h
  · unfold intMin at h
    omega
  · rename_i hne
    have hpos : t.values.length ≠ 0 := fun hzero => hne (List.length_eq_zero_iff.mp hzero)
    have := (Nat.le_log2 (k := 2) hpos).mp (by omega)
    simpa using this

theorem exists_height_of_chunkFrom {m : Int} (hm : 1 ≤ m) {depth : Nat} {t : ExprTree}
    {l : List ExprTree} (hg : Grown t) (hlen : 2 ≤ t.values.length)
    (h : chunkFrom m depth t = .ok l) : ∃ e ∈ l, 1 ≤ e.height := by
  induction depth generalizing t l with
  | zero => cases h
  | succ depth ih =>
    rcases Int.lt_or_le m t.height with hlt | hle
    · obtain ⟨e1, l1, e2, l2, h1, h2, h3, h4, rfl⟩ := (chunkFrom_of_lt hlt).mp h
      obtain ⟨j, hj, hop, hchild⟩ :=
        hg.operator_below_root (four_le_length (by omega)) hg.last
      have hne : t.get j ≠ null := by
        intro hnull
        rw [hnull, isOp_null] at hop
        cases hop
      have htwo := two_le_toStack (by omega) hop hchild
      have hnonnull := toStackFrom_ne_null t (t.values.length + 1) hne
      rcases hj with rfl | rfl
      · obtain ⟨hg1, hlen1, -⟩ := grown_regenerate hnonnull h1 htwo
        obtain ⟨e, he, hheight⟩ := ih hg1 hlen1 h2
        exact ⟨e, by simp [he], hheight⟩
      · obtain ⟨hg2, hlen2, -⟩ := grown_regenerate hnonnull h3 htwo
        obtain ⟨e, he, hheight⟩ := ih hg2 hlen2 h4
        exact ⟨e, by simp [he], hheight⟩
    · rw [chunkFrom, if_pos hle] at h
      obtain rfl := Except.ok.inj h
      exact ⟨t, by simp, height_pos hlen⟩

end DispCalc.ExprTree
