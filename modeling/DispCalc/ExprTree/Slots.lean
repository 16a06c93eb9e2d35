import DispCalc.ExprTree.Tasks
import DispCalc.Lib.Results

/-!
# Open slots

What `regenerate` and `toStack` do on any list: an operator opens two slots one level down,
every token fills the next one, and the loop fails when there is none left.
-/

open Postfix Layout

namespace DispCalc.ExprTree

/-! ## Counting the slots of a list -/

/-- How many slots are open after reading the tokens of a suffix from its end: the last token
opens 2, every other operator adds 1, and every other operand takes 1. -/
def openSlots (suffix : List String) : Int := 2 - weight isOp suffix.dropLast

/-- The count reaches 0 while tokens remain. -/
def RunsOut (stack : List String) : Prop :=
  ∃ remaining suffix, stack = remaining ++ suffix ∧ remaining ≠ [] ∧ suffix ≠ [] ∧ openSlots suffix = 0

/-- Tokens that fill open slots of the given levels, in this order, put no operator deeper than
level `m`. -/
def Shallow (m : Nat) : List Nat → List String → Prop
  | k :: ks, v :: vs => if isOp v then k ≤ m ∧ Shallow m ((k + 1) :: (k + 1) :: ks) vs else Shallow m ks vs
  | _, _ => True

/-- `RunsOut` from `n` open slots, with the tokens in reading order. -/
def RunsShort (n : Nat) (vs : List String) : Prop :=
  ∃ read remaining, vs = read ++ remaining ∧ remaining ≠ [] ∧ (n : Int) = weight isOp read

theorem runsShort_zero {vs : List String} : RunsShort 0 vs ↔ vs ≠ [] := by
  constructor
  · rintro ⟨read, remaining, rfl, hne, -⟩
    simp [hne]
  · intro hne
    exact ⟨[], vs, rfl, hne, rfl⟩

theorem not_runsShort_nil (n : Nat) : ¬ RunsShort n [] := by
  rintro ⟨read, remaining, hnil, hne, -⟩
  exact hne (List.append_eq_nil_iff.mp hnil.symm).2

/-- What one token does to the count. -/
def opened (v : String) : Int := if isOp v then 1 else -1

theorem runsShort_cons {n m : Nat} {v : String} {vs : List String} (hm : (m : Int) = n + 1 + opened v) :
    RunsShort (n + 1) (v :: vs) ↔ RunsShort m vs := by
  have hv : weight isOp [v] = -opened v := by
    unfold opened
    rw [weight_cons, weight_nil]
    split <;> rfl
  constructor
  · rintro ⟨_ | ⟨u, read⟩, remaining, heq, hne, hw⟩
    · simp only [weight_nil] at hw
      omega
    · obtain ⟨rfl, rfl⟩ := List.cons.inj heq
      rw [← List.singleton_append, weight_append, hv] at hw
      exact ⟨read, remaining, rfl, hne, by omega⟩
  · rintro ⟨read, remaining, rfl, hne, hw⟩
    refine ⟨v :: read, remaining, rfl, hne, ?_⟩
    rw [← List.singleton_append, weight_append, hv]
    omega

theorem runsOut_iff {stack rest : List String} {v : String} (h : stack.reverse = v :: rest) :
    RunsOut stack ↔ RunsShort 2 rest := by
  have hstack : stack = rest.reverse ++ [v] := by
    rw [← List.reverse_reverse stack, h, List.reverse_cons]
  unfold RunsOut RunsShort openSlots
  constructor
  · rintro ⟨remaining, suffix, heq, hne, hsuffix, hcount⟩
    obtain ⟨suffix, w, rfl⟩ := (List.eq_nil_or_concat' suffix).resolve_left hsuffix
    rw [← List.append_assoc, hstack] at heq
    obtain ⟨hrest, -⟩ := List.append_inj' heq rfl
    refine ⟨suffix.reverse, remaining.reverse, ?_, by simpa using hne, ?_⟩
    · rw [← List.reverse_append, ← hrest, List.reverse_reverse]
    · rw [List.dropLast_concat] at hcount
      rw [weight_reverse]
      omega
  · rintro ⟨read, remaining, rfl, hne, hw⟩
    refine ⟨remaining.reverse, read.reverse ++ [v], ?_, by simpa using hne, by simp, ?_⟩
    · rw [hstack, List.reverse_append, List.append_assoc]
    · rw [List.dropLast_concat, weight_reverse]
      omega

/-! ## The slots of the loop -/

/-- The indices that the next tokens go to. -/
def Regen.slots (s : Regen) : List Nat :=
  (if s.wasOp then [2 * s.parent + 1, 2 * s.parent] else []) ++ s.emptyBranch.map (2 * ·)

theorem slot_of_slots {s : Regen} {n : Nat} {ns : List Nat} (h : s.slots = n :: ns) :
    ∃ eb, Slot s n eb ∧ ns = eb.map (2 * ·) := by
  obtain ⟨tree, emptyBranch, wasOp, parent⟩ := s
  unfold Regen.slots at h
  cases wasOp with
  | true =>
    obtain ⟨rfl, rfl⟩ := List.cons.inj h
    exact ⟨parent :: emptyBranch, slot_right rfl rfl rfl, rfl⟩
  | false =>
    cases emptyBranch with
    | nil => cases h
    | cons p eb =>
      obtain ⟨rfl, rfl⟩ := List.cons.inj h
      exact ⟨eb, slot_left rfl rfl, rfl⟩

theorem Slot.slots {s : Regen} {n : Nat} {eb : List Nat} (h : Slot s n eb) :
    s.slots = n :: eb.map (2 * ·) := by
  unfold Regen.slots
  rcases h with ⟨hop, rfl, rfl⟩ | ⟨hop, p, heb, rfl⟩
  · rw [hop]
    rfl
  · rw [hop, heb]
    rfl

/-- The slots that one iteration leaves behind the slot `n` it fills. -/
def nextSlots (v : String) (n : Nat) (ns : List Nat) : List Nat :=
  if isOp v then (2 * n + 1) :: (2 * n) :: ns else ns

theorem slots_eq_nextSlots {s : Regen} {v : String} {n : Nat} (hop : s.wasOp = isOp v)
    (hpar : isOp v = true → s.parent = n) : s.slots = nextSlots v n (s.emptyBranch.map (2 * ·)) := by
  unfold Regen.slots nextSlots
  rw [hop]
  by_cases hv : isOp v = true
  · rw [if_pos hv, if_pos hv, hpar hv]
    rfl
  · rw [if_neg hv, if_neg hv]
    rfl

theorem mem_nextSlots {v : String} {n m : Nat} {ns : List Nat} (h : m ∈ nextSlots v n ns) :
    m / 2 = n ∨ m ∈ ns := by
  unfold nextSlots at h
  split at h
  · simp only [List.mem_cons] at h
    rcases h with rfl | rfl | h
    · exact Or.inl (by omega)
    · exact Or.inl (by omega)
    · exact Or.inr h
  · exact Or.inr h

theorem regenStep_slots {s : Regen} {n : Nat} {ns : List Nat} (h : s.slots = n :: ns)
    (hn : n ≤ 2147483647) (v : String) : ∃ s', regenStep s v = .ok s' ∧ s'.slots = nextSlots v n ns := by
  obtain ⟨eb, hslot, rfl⟩ := slot_of_slots h
  obtain ⟨s', hstep, -, rfl, hop, hpar⟩ := regenStep_slot hslot hn v
  exact ⟨s', hstep, slots_eq_nextSlots hop hpar⟩

theorem slots_of_regenStep {s s' : Regen} {v : String} (h : regenStep s v = .ok s') :
    ∃ n ns, s.slots = n :: ns ∧ s'.tree = s.tree.add n v ∧ s'.slots = nextSlots v n ns := by
  obtain ⟨n, eb, hslot, -, htree, rfl, hop, hpar⟩ := regenStep_ok h
  exact ⟨n, _, hslot.slots, htree, slots_eq_nextSlots hop hpar⟩

theorem regenStep_no_slots {s : Regen} (h : s.slots = []) (v : String) :
    regenStep s v = .error .emptyBranch := by
  obtain ⟨tree, emptyBranch, wasOp, parent⟩ := s
  unfold Regen.slots at h
  cases wasOp with
  | true => cases h
  | false =>
    obtain rfl : emptyBranch = [] := by simpa using h
    rfl

/-! ## Running short -/

/-- Every open slot is an index of the vector, on one of the levels that `Shallow` counts with. -/
structure OnLevels (ns ks : List Nat) : Prop where
  levels : ns.map Nat.log2 = ks
  pos : ∀ n ∈ ns, 1 ≤ n
  low : ∀ k ∈ ks, k ≤ 30

theorem OnLevels.head_le {n k : Nat} {ns ks : List Nat} (h : OnLevels (n :: ns) (k :: ks)) :
    n ≤ 2147483647 := by
  have hn := h.pos n List.mem_cons_self
  have hlevel : n.log2 = k := (List.cons.inj h.levels).1
  have hk := h.low k List.mem_cons_self
  have hlt : n < 2 ^ 31 := (Nat.log2_lt (by omega)).mp (by omega)
  omega

theorem onLevels_root (v : String) :
    OnLevels (Regen.slots ⟨({} : ExprTree).add 1 v, [], true, 1⟩) [1, 1] :=
  ⟨show [Nat.log2 3, Nat.log2 2] = [1, 1] by decide, by simp [Regen.slots], by simp⟩

theorem OnLevels.next {n k : Nat} {ns ks : List Nat} {v : String} {vs : List String}
    (h : OnLevels (n :: ns) (k :: ks)) (hv : Shallow 29 (k :: ks) (v :: vs)) :
    ∃ ks', OnLevels (nextSlots v n ns) ks' ∧ Shallow 29 ks' vs := by
  obtain ⟨hk, hks⟩ := List.cons.inj h.levels
  have hn := h.pos n List.mem_cons_self
  have hpos : ∀ i ∈ ns, 1 ≤ i := fun i hi => h.pos i (List.mem_cons_of_mem n hi)
  have hlow : ∀ i ∈ ks, i ≤ 30 := fun i hi => h.low i (List.mem_cons_of_mem k hi)
  unfold Shallow at hv
  unfold nextSlots
  split at hv
  · rename_i hop
    rw [if_pos hop]
    refine ⟨(k + 1) :: (k + 1) :: ks, ⟨?_, ?_, ?_⟩, hv.2⟩
    · rw [List.map_cons, List.map_cons, log2_child (m := 2 * n + 1) hn (by omega),
      log2_child (m := 2 * n) hn (by omega), hk, hks]
    · simp only [List.forall_mem_cons]
      exact ⟨by omega, by omega, hpos⟩
    · simp only [List.forall_mem_cons]
      exact ⟨by omega, by omega, hlow⟩
  · rename_i hop
    rw [if_neg hop]
    exact ⟨ks, ⟨hks, hpos, hlow⟩, hv⟩

theorem length_nextSlots (v : String) (n : Nat) (ns : List Nat) :
    ((nextSlots v n ns).length : Int) = ns.length + 1 + opened v := by
  unfold nextSlots opened
  split
  · simp only [List.length_cons]
    omega
  · omega

theorem foldlM_slots {vs : List String} {s : Regen} {ks : List Nat} (h : OnLevels s.slots ks)
    (hvs : Shallow 29 ks vs) :
    (RunsShort s.slots.length vs → vs.foldlM regenStep s = .error .emptyBranch) ∧
      (¬ RunsShort s.slots.length vs → ∃ s', vs.foldlM regenStep s = .ok s') := by
  induction vs generalizing s ks with
  | nil => exact ⟨fun hshort => absurd hshort (not_runsShort_nil _), fun _ => ⟨s, rfl⟩⟩
  | cons v vs ih =>
    cases hslots : s.slots with
    | nil =>
      refine ⟨fun _ => ?_, fun hshort => absurd (runsShort_zero.mpr (List.cons_ne_nil v vs)) hshort⟩
      rw [List.foldlM_cons, regenStep_no_slots hslots, Except.error_bind]
    | cons n ns =>
      rw [hslots] at h
      obtain ⟨k, ks, rfl⟩ : ∃ k ks', ks = k :: ks' := ⟨_, _, h.levels.symm⟩
      obtain ⟨s1, hstep, hslots1⟩ := regenStep_slots hslots h.head_le v
      obtain ⟨ks1, h1, hvs1⟩ := h.next hvs
      have hlen := length_nextSlots v n ns
      rw [← hslots1] at h1 hlen
      rw [List.foldlM_cons, hstep, Except.ok_bind, List.length_cons, runsShort_cons hlen]
      exact ih h1 hvs1

/-! ## The list of the finished tree -/

/-- Nothing lies at the slots or below, and none is below another. -/
structure Vacant (t : ExprTree) (ns : List Nat) : Prop where
  pos : ∀ n ∈ ns, 1 ≤ n
  empty : ∀ n ∈ ns, ∀ i, Below n i → t.get i = null
  apart : ns.Pairwise fun a b => ∀ i, Below a i → ¬ Below b i

theorem Vacant.next {t : ExprTree} {n : Nat} {ns : List Nat} (h : Vacant t (n :: ns)) (v : String) :
    Vacant (t.add n v) (nextSlots v n ns) := by
  have hn := h.pos n List.mem_cons_self
  obtain ⟨hhead, htail⟩ := List.pairwise_cons.mp h.apart
  have hold : ∀ m ∈ ns, ∀ i, Below m i → (t.add n v).get i = null := by
    intro m hm i hi
    rw [get_add hn, if_neg (fun heq => hhead m hm n (below_self n) (by rwa [heq] at hi))]
    exact h.empty m (List.mem_cons_of_mem n hm) i hi
  have hchild : ∀ m, m / 2 = n → ∀ i, Below m i → (t.add n v).get i = null := by
    intro m hm i hi
    have hle := hi.le
    rw [get_add hn, if_neg (by omega)]
    exact h.empty n List.mem_cons_self i (hi.of_child hm)
  have hfar : ∀ m, m / 2 = n → ∀ k ∈ ns, ∀ i, Below m i → ¬ Below k i :=
    fun m hm k hk i hi => hhead k hk i (hi.of_child hm)
  have hpos : ∀ m ∈ ns, 1 ≤ m := fun m hm => h.pos m (List.mem_cons_of_mem n hm)
  unfold nextSlots
  split
  · refine ⟨?_, ?_, ?_⟩
    · simp only [List.forall_mem_cons]
      exact ⟨by omega, by omega, hpos⟩
    · simp only [List.forall_mem_cons]
      exact ⟨hchild (2 * n + 1) (by omega), hchild (2 * n) (by omega), hold⟩
    · simp only [List.pairwise_cons, List.forall_mem_cons]
      exact ⟨⟨fun i hr hl => siblings_disjoint hn hl hr, hfar (2 * n + 1) (by omega)⟩,
        hfar (2 * n) (by omega), htail⟩
  · exact ⟨hpos, hold, htail⟩

/-- What `toStack` adds to the list for the subtree at `n`. -/
def stackAt (t : ExprTree) (n : Nat) : List String := if t.get n = null then [] else t.toStack n

theorem toStack_operator {t : ExprTree} {n : Nat} (hn : 1 ≤ n) (h : isOp (t.get n) = true) :
    t.toStack n = stackAt t (2 * n) ++ stackAt t (2 * n + 1) ++ [t.get n] := by
  rw [toStack_eq t hn, h, Nat.mul_comm n 2]
  unfold stackAt
  congr 2 <;> split <;> simp_all

theorem foldlM_postorder {vs : List String} (hnull : ∀ v ∈ vs, v ≠ null) {s s' : Regen}
    (hrun : vs.foldlM regenStep s = .ok s') (h : Vacant s.tree s.slots) :
    vs.reverse = s.slots.reverse.flatMap (stackAt s'.tree) ∧
      ∀ i, (∀ n ∈ s.slots, ¬ Below n i) → s'.tree.get i = s.tree.get i := by
  induction vs generalizing s with
  | nil =>
    obtain rfl := Except.ok.inj hrun
    refine ⟨(List.flatMap_eq_nil_iff.mpr fun n hn => ?_).symm, fun i _ => rfl⟩
    exact if_pos (h.empty n (List.mem_reverse.mp hn) n (below_self n))
  | cons v vs ih =>
    rw [List.foldlM_cons] at hrun
    obtain ⟨s1, hstep, hrun⟩ := Except.bind_eq_ok.mp hrun
    obtain ⟨n, ns, hslots, htree, hslots1⟩ := slots_of_regenStep hstep
    rw [hslots] at h ⊢
    have hn := h.pos n List.mem_cons_self
    have h1 := h.next v
    rw [← htree, ← hslots1] at h1
    obtain ⟨hlist, hframe⟩ := ih (fun u hu => hnull u (List.mem_cons_of_mem v hu)) hrun h1
    have hbelow : ∀ i, (∀ m ∈ n :: ns, ¬ Below m i) → ∀ m ∈ s1.slots, ¬ Below m i := by
      intro i hi m hm
      rw [hslots1] at hm
      rcases mem_nextSlots hm with hchild | hm
      · exact fun hmi => hi n List.mem_cons_self (hmi.of_child hchild)
      · exact hi m (List.mem_cons_of_mem n hm)
    have hroot : s'.tree.get n = v := by
      rw [hframe n ?_, htree, get_add hn, if_pos rfl]
      intro m hm hmn
      rw [hslots1] at hm
      rcases mem_nextSlots hm with hchild | hm
      · have hle := hmn.le
        omega
      · exact (List.pairwise_cons.mp h.apart).1 m hm n (below_self n) hmn
    refine ⟨?_, fun i hi => ?_⟩
    · have hhere : stackAt s'.tree n = s'.tree.toStack n :=
        if_neg (by rw [hroot]; exact hnull v List.mem_cons_self)
      rw [List.reverse_cons, hlist, hslots1, List.reverse_cons, List.flatMap_append,
        List.flatMap_singleton, hhere]
      unfold nextSlots
      by_cases hv : isOp v = true
      · rw [if_pos hv, toStack_operator hn (by rw [hroot, hv]), hroot]
        simp
      · rw [if_neg hv, toStack_of_not_isOp hn (by rw [hroot]; simpa using hv), hroot]
    · rw [hframe i (hbelow i hi), htree, get_add hn, if_neg]
      rintro rfl
      exact hi _ List.mem_cons_self (below_self _)

theorem vacant_root (v : String) : Vacant (({} : ExprTree).add 1 v) [3, 2] := by
  have hempty : ∀ i, 2 ≤ i → (({} : ExprTree).add 1 v).get i = null := by
    intro i hi
    rw [get_add le_rfl, if_neg (by omega)]
    match i with
    | i + 1 => rfl
  refine ⟨by simp, ?_, ?_⟩
  · simp only [List.forall_mem_cons]
    exact ⟨fun i hi => hempty i (by have := hi.le; omega), fun i hi => hempty i hi.le, by simp⟩
  · simp only [List.pairwise_cons, List.forall_mem_cons]
    exact ⟨⟨fun i hr hl => siblings_disjoint le_rfl hl hr, by simp⟩, by simp⟩

/-- **`toStack` undoes `regenerate`**, also on lists that lack leading operands. The loop reads
the top of an empty `emptyBranch` exactly on the lists that run out of slots. -/
theorem toStack_regenerate {stack : List String} (hne : stack ≠ []) (hnull : ∀ v ∈ stack, v ≠ null)
    (hshallow : Shallow 29 [1, 1] stack.reverse.tail) :
    (regenerate stack = .error .emptyBranch ↔ RunsOut stack) ∧
      (¬ RunsOut stack → isOp (stack.getLast hne) = true ∨ stack.length = 1 →
        ∃ t, regenerate stack = .ok t ∧ t.toStack 1 = stack) := by
  obtain ⟨front, v, rfl⟩ := (List.eq_nil_or_concat' stack).resolve_left hne
  have hrev : (front ++ [v]).reverse = v :: front.reverse := by simp
  rw [hrev, List.tail_cons] at hshallow
  let s : Regen := ⟨({} : ExprTree).add 1 v, [], true, 1⟩
  obtain ⟨hshort, henough⟩ := foldlM_slots (onLevels_root v) hshallow
  have hregen : regenerate (front ++ [v]) =
      front.reverse.foldlM regenStep s >>= fun s => pure s.tree := by
    rw [regenerate, hrev]
  rw [runsOut_iff hrev, hregen]
  refine ⟨⟨fun herr => ?_, fun h => ?_⟩, fun h hlast => ?_⟩
  · by_contra h
    obtain ⟨s', hrun⟩ := henough h
    rw [hrun] at herr
    cases herr
  · rw [hshort h, Except.error_bind]
  · obtain ⟨s', hrun⟩ := henough h
    obtain ⟨hlist, hframe⟩ := foldlM_postorder
      (fun u hu => hnull u (by simpa using Or.inl hu)) hrun (vacant_root v)
    have hroot : s'.tree.get 1 = v := by
      have hnot : ∀ n ∈ s.slots, ¬ Below n 1 := by
        intro n hn hbelow
        have hle := hbelow.le
        simp [s, Regen.slots] at hn
        omega
      rw [hframe 1 hnot, get_add le_rfl, if_pos rfl]
    refine ⟨s'.tree, by rw [hrun]; rfl, ?_⟩
    by_cases hv : isOp v = true
    · rw [toStack_operator le_rfl (by rw [hroot, hv]), hroot]
      have hfront : front = [2, 3].flatMap (stackAt s'.tree) := by
        rw [← List.reverse_reverse front, hlist]
        rfl
      rw [hfront]
      simp
    · obtain rfl : front = [] := by simpa [hv] using hlast
      rw [toStack_of_not_isOp le_rfl (by rw [hroot]; simpa using hv), hroot]
      rfl

/-- `2 +` lacks an operand, and `3 2 1 +` has one too many. -/
theorem toStack_regenerate_incomplete :
    (∃ t, regenerate ["2", "ADD"] = .ok t ∧ t.toStack 1 = ["2", "ADD"]) ∧
      regenerate ["3", "2", "1", "ADD"] = .error .emptyBranch := by
  have hshort : RunsOut ["3", "2", "1", "ADD"] :=
    ⟨["3"], ["2", "1", "ADD"], rfl, by decide, by decide, by decide⟩
  have henough : ¬ RunsOut ["2", "ADD"] := by
    rw [runsOut_iff rfl, runsShort_cons (m := 1) (by decide)]
    exact not_runsShort_nil 1
  exact ⟨(toStack_regenerate (by decide) (by decide) (by simp [Shallow])).2 henough (Or.inl (by decide)),
    (toStack_regenerate (by decide) (by decide) (by simp [Shallow, isOp])).1.mpr hshort⟩

end DispCalc.ExprTree
