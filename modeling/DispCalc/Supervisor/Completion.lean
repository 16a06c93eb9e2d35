import DispCalc.Supervisor.Dispatch

/-!
# Completion

`finalComputation` runs once and on all the results, if no result completes the entries while
the loop still has some to push.
-/

open Postfix Runs

namespace DispCalc

/-- The entries that `finalComputation` read: one for each of the `n` chunks, with a result. -/
def Final.Complete {ι : Type} (f : Final ι) (n : Nat) : Prop :=
  f.entries.length = n ∧ ∀ r ∈ f.entries, r.result.isSome = true

namespace ClientControllerSupervisor

variable {ι : Type}

/-- Some entry other than the one at `idx` has no result yet. -/
def othersMissing (st : ClientControllerSupervisor ι) (idx : Nat) : Bool :=
  st.resultStack.zipIdx.any fun (r, k) => k != idx && r.result.isNone

theorem othersMissing_iff {st : ClientControllerSupervisor ι} {idx : Nat} :
    st.othersMissing idx = true ↔
      ∃ k r, k ≠ idx ∧ st.resultStack[k]? = some r ∧ r.result = none := by
  simp only [othersMissing, List.any_eq_true, Bool.and_eq_true, bne_iff_ne, ne_eq,
    Option.isNone_iff_eq_none, Prod.exists, List.mem_zipIdx_iff_getElem?]
  constructor
  · rintro ⟨r, k, hr, hk, hnone⟩
    exact ⟨k, r, hk, hr, hnone⟩
  · rintro ⟨k, r, hk, hr, hnone⟩
    exact ⟨r, k, hr, hk, hnone⟩

/-- A result finds every entry pushed, or another entry that still waits. -/
def inTime (st : ClientControllerSupervisor ι) : Event ι → Bool
  | .result _ _ idx => st.resultStack.length == st.chunkedTree.length || st.othersMissing idx
  | _ => true

structure FinalsInv (st : ClientControllerSupervisor ι) : Prop where
  once : st.finals.length ≤ 1
  complete : ∀ f ∈ st.finals, f.Complete st.chunkedTree.length
  after : st.finals ≠ [] →
    st.resultStack.length = st.chunkedTree.length ∧ st.isResultComplete = true

theorem isResultComplete_iff {st : ClientControllerSupervisor ι} :
    st.isResultComplete = true ↔ ∀ r ∈ st.resultStack, r.result.isSome = true := by
  simp [isResultComplete]

theorem FinalsInv.of_same {st st' : ClientControllerSupervisor ι} (h : FinalsInv st)
    (hchunks : st'.chunkedTree = st.chunkedTree) (hfinals : st'.finals = st.finals)
    (hres : st'.resultStack = st.resultStack) : FinalsInv st' := by
  refine ⟨by rw [hfinals]; exact h.once, by rw [hfinals, hchunks]; exact h.complete, fun hne => ?_⟩
  obtain ⟨hlen, hall⟩ := h.after (by rwa [hfinals] at hne)
  exact ⟨by rw [hres, hchunks, hlen], isResultComplete_iff.mpr
    (by rw [hres]; exact isResultComplete_iff.mp hall)⟩

theorem FinalsInv.no_finals {st : ClientControllerSupervisor ι} (h : FinalsInv st) (hinv : Inv st)
    {c : ι} {task : ClientControllerTask} (htask : st.tasks c = some task) {k : Nat}
    (hentry : HasEntry st c k) (hending : task.ending ≠ some .result) : st.finals = [] := by
  by_contra hne
  obtain ⟨r, hr, hid⟩ := hentry
  have hsome := isResultComplete_iff.mp (h.after hne).2 r (List.mem_of_getElem? hr)
  rw [hinv.result_none htask hending hr hid] at hsome
  cases hsome

theorem not_complete_of_othersMissing {st st' : ClientControllerSupervisor ι} {idx : Nat}
    (h : st.othersMissing idx = true) {r : ThreadResult ι}
    (hres : st'.resultStack = st.resultStack.set idx r) : ¬ st'.isResultComplete = true := by
  intro hcomplete
  obtain ⟨k, r', hk, hr', hnone⟩ := othersMissing_iff.mp h
  have hr'' : st'.resultStack[k]? = some r' := by
    rw [hres, List.getElem?_set_ne (Ne.symm hk), hr']
  have := isResultComplete_iff.mp hcomplete r' (List.mem_of_getElem? hr'')
  simp [hnone] at this

variable [DecidableEq ι]

theorem finalsInv_statement {st st' : ClientControllerSupervisor ι} (h : FinalsInv st)
    (hinv : Inv st) (hstep : st.statement = some st') : FinalsInv st' := by
  have hlen := hinv.length
  have hbound := hinv.bound
  -- While there are entries to push, there has been no final computation.
  have hpush : st.resultStack.length ≠ st.chunkedTree.length → st.finals = [] := fun hne => by
    by_contra hfinals
    exact hne (h.after hfinals).1
  rcases statement_cases hstep with ⟨t, hpoint, ht, hheight⟩ | ⟨c, hpoint⟩ | ⟨c, hpoint⟩ |
    ⟨c, hpoint⟩ | hpoint
  · have hlt := (List.getElem?_eq_some_iff.mp ht).1
    have hnil := hpush (by simp only [hpoint, Point.ahead] at hlen; omega)
    exact ⟨h.once, h.complete, fun hne => absurd hnil hne⟩
  · exact h.of_same rfl rfl rfl
  · have hnil := hpush (by simp only [hpoint, Point.ahead, Point.inside] at hlen hbound; omega)
    exact ⟨h.once, h.complete, fun hne => absurd hnil hne⟩
  · exact h.of_same rfl rfl rfl
  · exact h.of_same rfl rfl rfl

variable [ToString ι]

theorem finalsInv_result {st st' : ClientControllerSupervisor ι} {c : ι}
    {value : { i : Int // InInt i }} {idx : Nat} (h : FinalsInv st) (hinv : Inv st)
    (hok : inTime st (.result c value idx) = true) (hstep : st.step (.result c value idx) = some st') :
    FinalsInv st' := by
  obtain ⟨hends, hdelivery, -⟩ := result_cases hstep
  obtain ⟨task, htask, hrunning⟩ := hends.running
  rcases hdelivery with ⟨-, hres, hfinals, -⟩ | ⟨r, -, -, hres, hfinals, -⟩ |
    ⟨r, hr, hid, hres, hfinals, -⟩
  · exact h.of_same hends.chunkedTree hfinals hres
  · exact h.of_same hends.chunkedTree hfinals hres
  · have hnil := h.no_finals hinv htask ⟨r, hr, hid⟩ (by simp [hrunning])
    rw [hnil, List.nil_append] at hfinals
    by_cases hcomplete : st'.isResultComplete = true
    · rw [if_pos hcomplete] at hfinals
      have hlen : st'.resultStack.length = st'.chunkedTree.length := by
        unfold inTime at hok
        simp only [Bool.or_eq_true, beq_iff_eq] at hok
        rcases hok with hall | hmissing
        · rw [hends.chunkedTree, hres, List.length_set, hall]
        · exact absurd hcomplete (not_complete_of_othersMissing hmissing hres)
      refine ⟨by simp [hfinals], fun f hf => ?_, fun _ => ⟨hlen, hcomplete⟩⟩
      rw [hfinals, List.mem_singleton] at hf
      subst hf
      exact ⟨hlen, isResultComplete_iff.mp hcomplete⟩
    · rw [if_neg hcomplete] at hfinals
      exact ⟨by simp [hfinals], by simp [hfinals], fun hne => absurd hfinals hne⟩

theorem finalsInv_step {st st' : ClientControllerSupervisor ι} {e : Event ι} (h : FinalsInv st)
    (hinv : Inv st) (hok : inTime st e = true) (hstep : st.step e = some st') : FinalsInv st' := by
  rcases e with c | _ | ⟨c, value, idx⟩ | c | c
  · obtain ⟨t, -, -, -, -, rfl⟩ := createThread_cases hstep
    exact h.of_same rfl rfl rfl
  · exact finalsInv_statement h hinv hstep
  · exact finalsInv_result h hinv hok hstep
  · obtain ⟨hends, hres, hfinals, -⟩ := networkError_cases hstep
    exact h.of_same hends.chunkedTree hfinals hres
  · obtain ⟨hends, hres, hfinals, -⟩ := otherError_cases hstep
    exact h.of_same hends.chunkedTree hfinals hres

theorem finalsInv_of_reaches {ok : ClientControllerSupervisor ι → Event ι → Prop}
    {st st' : ClientControllerSupervisor ι} (hfresh : Fresh st)
    (hok : ∀ st e, Inv st → ok st e → inTime st e = true) (h : Reaches step ok st st') :
    FinalsInv st' := by
  refine h.invariant_of (fun t ht => inv_of_reaches hfresh ht) ?_
    fun st st' e hinv _ hfin he hstep => finalsInv_step hfin hinv (hok st e hinv he) hstep
  exact ⟨by simp [hfresh.record.1], by simp [hfresh.record.1], fun hne => absurd hfresh.record.1 hne⟩

/-- A result names its own entry, which the loop has pushed; nothing else ends a task. -/
def ownEntry (st : ClientControllerSupervisor ι) : Event ι → Bool
  | .result c _ idx =>
    (st.tasks c).any fun t => idx == t.chunk && decide (idx < st.resultStack.length)
  | .networkError _ | .otherError _ => false
  | _ => true

/-- In every run where each result finds every entry pushed or another one waiting,
`finalComputation` runs at most once, and only on all the results. -/
theorem final_once_complete {s : List String} {max_h : Nat}
    {st0 st : ClientControllerSupervisor ι} (hd : Dispatches s max_h st0)
    (hrun : Reaches step (fun st e => (ownEntry st e && inTime st e) = true) st0 st) :
    st.finals.length ≤ 1 ∧ ∀ f ∈ st.finals, f.Complete st.chunkedTree.length := by
  have hinv := finalsInv_of_reaches hd.fresh (fun st e _ hok => by
    simp only [Bool.and_eq_true] at hok
    exact hok.2) hrun
  exact ⟨hinv.once, hinv.complete⟩

theorem final_once_of_two :
    ∃ st0 st : ClientControllerSupervisor Nat,
      Dispatches ["1", "1", "ADD", "1", "1", "ADD", "MULTIPLY"] 1 st0 ∧ (∃ f, st.finals = [f]) ∧
      (st.finals.length ≤ 1 ∧ ∀ f ∈ st.finals, f.Complete st.chunkedTree.length) := by
  -- The first task answers while the second waits, and the second before the loop has ended.
  obtain ⟨st0, st, hd, hplay, hfinal⟩ :
      ∃ st0 st : ClientControllerSupervisor Nat,
        Dispatches ["1", "1", "ADD", "1", "1", "ADD", "MULTIPLY"] 1 st0 ∧
        play step (fun st e => ownEntry st e && inTime st e) st0
          [.createThread 7, .statement, .statement, .statement, .statement, .createThread 8, .statement,
            .statement, .statement, .result 7 ⟨2, by decide⟩ 0, .statement, .statement,
            .result 8 ⟨2, by decide⟩ 1, .statement] = some st ∧
        ∃ f, st.finals = [f] :=
    ⟨_, _, ⟨_, rfl, by decide, rfl⟩, rfl, _, rfl⟩
  exact ⟨st0, st, hd, hfinal, final_once_complete hd (reaches_of_play hplay)⟩

/-- The first of two tasks answers before the second has an entry. -/
theorem final_too_early :
    ¬ ∀ (e : IntExpr) (max_h : Nat) (st0 st : ClientControllerSupervisor Nat),
      Expr.height e ≤ 30 → Dispatches e.tokens max_h st0 →
      Reaches step (fun st e => ownEntry st e = true) st0 st →
      st.finals.length ≤ 1 ∧ ∀ f ∈ st.finals, f.Complete st.chunkedTree.length := by
  intro h
  let one : IntExpr := .leaf (.ofInt 1 (by decide))
  let e : IntExpr := .node .multiply (.node .add one one) (.node .add one one)
  obtain ⟨st0, st, hd, hplay, f, hf, hlen⟩ :
      ∃ st0 st : ClientControllerSupervisor Nat, Dispatches e.tokens 1 st0 ∧
        play step ownEntry st0
          [.createThread 7, .statement, .statement, .result 7 ⟨2, by decide⟩ 0] = some st ∧
        ∃ f, st.finals = [f] ∧ f.entries.length ≠ st.chunkedTree.length :=
    ⟨_, _, ⟨_, rfl, by decide, rfl⟩, rfl, _, rfl, by decide⟩
  obtain ⟨-, hcomplete⟩ := h e 1 st0 st (by decide) hd (reaches_of_play hplay)
  exact hlen (hcomplete f (by simp [hf])).1

end ClientControllerSupervisor

end DispCalc
