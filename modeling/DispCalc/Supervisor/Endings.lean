import DispCalc.Supervisor.Completion
import DispCalc.Supervisor.Delivery

/-!
# When all tasks have ended

The runs here have no task end before the loop does. What is left at their end depends on how
the tasks ended: results complete the computation, network errors abort it, and any other
exception leaves an entry without a result.
-/

open Postfix Runs

namespace DispCalc.ClientControllerSupervisor

variable {ι : Type}

/-! ## How tasks have ended -/

def endingOf (st : ClientControllerSupervisor ι) (c : ι) : Option Ending :=
  (st.tasks c).bind ClientControllerTask.ending

theorem endingOf_some {st : ClientControllerSupervisor ι} {c : ι} {ending : Ending} :
    st.endingOf c = some ending ↔ ∃ task, st.tasks c = some task ∧ task.ending = some ending := by
  unfold endingOf
  rcases st.tasks c with _ | task <;> simp

theorem Fresh.endingOf {st : ClientControllerSupervisor ι} (h : Fresh st) (c : ι) :
    st.endingOf c = none := by
  simp [ClientControllerSupervisor.endingOf, h.tasks]

theorem Inv.endingOf_entry {st : ClientControllerSupervisor ι} (h : Inv st) {k : Nat}
    {r : ThreadResult ι} {t : ExprTree} (hr : st.resultStack[k]? = some r)
    (ht : st.chunkedTree[k]? = some t) (hheight : t.height ≠ 0) :
    ∃ c task, r.threadId = some c ∧ st.tasks c = some task ∧ task.chunk = k ∧
      (r.result.isSome = true → st.endingOf c = some .result) := by
  obtain ⟨t', ht', hentry⟩ := h.entry k r hr
  obtain rfl := Option.some.inj (ht.symm.trans ht')
  rcases hentry with ⟨hzero, -⟩ | ⟨-, c, task, hid, htask, hchunk, hended⟩
  · exact absurd hzero hheight
  · exact ⟨c, task, hid, htask, hchunk, fun hsome => endingOf_some.mpr ⟨task, htask, hended hsome⟩⟩

theorem finished_iff {st : ClientControllerSupervisor ι} :
    st.finished = true ↔ st.point = .test ∧ st.chunkedTree.length ≤ st.it := by
  unfold finished
  rcases st.point <;> simp

theorem Inv.length_of_finished {st : ClientControllerSupervisor ι} (h : Inv st)
    (hfin : st.finished = true) : st.resultStack.length = st.chunkedTree.length := by
  obtain ⟨hpoint, hle⟩ := finished_iff.mp hfin
  have hlen := h.length
  have hbound := h.bound
  simp only [hpoint, Point.ahead, Point.inside] at hlen hbound
  omega

theorem Inv.entry_of_finished {st : ClientControllerSupervisor ι} (h : Inv st)
    (hfin : st.finished = true) {k : Nat} {t : ExprTree} (ht : st.chunkedTree[k]? = some t) :
    ∃ r, st.resultStack[k]? = some r := by
  have hlt := (List.getElem?_eq_some_iff.mp ht).1
  rw [← h.length_of_finished hfin] at hlt
  exact ⟨_, List.getElem?_eq_getElem hlt⟩

theorem Inv.exists_task {st : ClientControllerSupervisor ι} (h : Inv st) (hfin : st.finished = true)
    (hwork : HasWork st) : ∃ c task, st.tasks c = some task := by
  obtain ⟨t, ht, hheight⟩ := hwork
  obtain ⟨k, hk⟩ := List.mem_iff_getElem?.mp ht
  obtain ⟨r, hr⟩ := h.entry_of_finished hfin hk
  obtain ⟨c, task, -, htask, -⟩ := h.endingOf_entry hr hk hheight
  exact ⟨c, task, htask⟩

theorem Inv.hasEntry_of_length {st : ClientControllerSupervisor ι} (h : Inv st)
    (hlen : st.resultStack.length = st.chunkedTree.length) {c : ι} {task : ClientControllerTask}
    (htask : st.tasks c = some task) : HasEntry st c task.chunk := by
  obtain ⟨t, -, htaskOf⟩ := h.task c task htask
  have hpushed := h.length
  have hbound := h.bound
  rcases htaskOf.entry with hentry | ⟨-, hp | hp⟩
  · exact hentry
  · simp only [hp, Point.ahead, Point.inside] at hpushed hbound
    omega
  · simp only [hp, Point.ahead, Point.inside] at hpushed hbound
    omega

theorem Inv.hasEntry_of_finished {st : ClientControllerSupervisor ι} (h : Inv st)
    (hfin : st.finished = true) {c : ι} {task : ClientControllerTask}
    (htask : st.tasks c = some task) : HasEntry st c task.chunk :=
  h.hasEntry_of_length (h.length_of_finished hfin) htask

theorem Inv.allEnded_of_entries {st : ClientControllerSupervisor ι} (h : Inv st)
    (hfin : st.finished = true)
    (hended : (st.resultStack.all fun r => r.threadId.all fun c => (st.endingOf c).isSome) = true) :
    st.allEnded := by
  intro c task htask hnone
  obtain ⟨r, hr, hid⟩ := h.hasEntry_of_finished hfin htask
  have := List.all_eq_true.mp hended r (List.mem_of_getElem? hr)
  simp [hid, endingOf, htask, hnone] at this

theorem Inv.indexed_of_finished {st : ClientControllerSupervisor ι} (h : Inv st)
    (hfin : st.finished = true) {c : ι} {task : ClientControllerTask}
    (htask : st.tasks c = some task) (hdel : task.deleted = false) : st.indexed c = true := by
  obtain ⟨t, -, htaskOf⟩ := h.task c task htask
  have hpoint := (finished_iff.mp hfin).1
  have hset : task.idxInResultStack.isSome = true := by
    by_contra hnone
    have := htaskOf.unset (by simpa using hnone)
    simp [hpoint, Point.thread] at this
  simp [indexed, htask, hset, hdel]

variable [DecidableEq ι]

theorem endingOf_createThread {st st' : ClientControllerSupervisor ι} {c : ι}
    (h : st.createThread c = some st') (d : ι) : st'.endingOf d = st.endingOf d := by
  obtain ⟨t, -, -, -, hnew, rfl⟩ := createThread_cases h
  by_cases hd : d = c
  · subst hd
    simp [endingOf, hnew]
  · simp [endingOf, Function.update_of_ne hd]

theorem endingOf_statement {st st' : ClientControllerSupervisor ι} (h : st.statement = some st')
    (d : ι) : st'.endingOf d = st.endingOf d := by
  rcases statement_cases h with _ | _ | _ | ⟨c, -⟩ | _
  · rfl
  · rfl
  · rfl
  · by_cases hd : d = c
    · subst hd
      rcases htask : st.tasks d with _ | task <;> simp [endingOf, setIdx, htask]
    · simp [endingOf, setIdx, Function.update_of_ne hd]
  · rfl

theorem Ends.endingOf {st st' : ClientControllerSupervisor ι} {c : ι} {ending : Ending}
    (h : Ends st st' c ending) (d : ι) :
    st'.endingOf d = if d = c then some ending else st.endingOf d := by
  obtain ⟨deleted, -, htasks⟩ := h.tasks d
  by_cases hd : d = c
  · subst hd
    obtain ⟨task, htask, -⟩ := h.running
    simp [ClientControllerSupervisor.endingOf, htasks, htask]
  · rcases htask : st.tasks d with _ | task <;>
      simp [ClientControllerSupervisor.endingOf, htasks, htask, hd]

theorem Ends.endingOf_none {st st' : ClientControllerSupervisor ι} {c : ι} {ending : Ending}
    (h : Ends st st' c ending) : st.endingOf c = none := by
  obtain ⟨task, htask, hrunning⟩ := h.running
  simp [ClientControllerSupervisor.endingOf, htask, hrunning]

theorem Ends.finished {st st' : ClientControllerSupervisor ι} {c : ι} {ending : Ending}
    (h : Ends st st' c ending) : st'.finished = st.finished := by
  unfold ClientControllerSupervisor.finished
  simp only [h.point, h.chunkedTree, h.it]

theorem Ends.exists_endingOf {st st' : ClientControllerSupervisor ι} {c : ι} {ending : Ending}
    (h : Ends st st' c ending) (k : Ending) :
    (∃ d, st'.endingOf d = some k) ↔ k = ending ∨ ∃ d, st.endingOf d = some k := by
  constructor
  · rintro ⟨d, hd⟩
    rw [h.endingOf] at hd
    split at hd
    · exact Or.inl (Option.some.inj hd).symm
    · exact Or.inr ⟨d, hd⟩
  · rintro (rfl | ⟨d, hd⟩)
    · exact ⟨c, by rw [h.endingOf, if_pos rfl]⟩
    · refine ⟨d, ?_⟩
      have hne : d ≠ c := by
        rintro rfl
        rw [h.endingOf_none] at hd
        cases hd
      rw [h.endingOf, if_neg hne, hd]

/-! ## Tasks that end after the loop -/

/-- No task ends before the loop of `dispatchTree` has. -/
def afterLoop (st : ClientControllerSupervisor ι) : Event ι → Bool
  | .createThread _ | .statement => true
  | _ => st.finished

structure QuietInv (st : ClientControllerSupervisor ι) : Prop where
  before : st.finished = false → ∀ c, st.endingOf c = none
  waiting : st.finished = true → HasWork st → st.finals = [] → st.isResultComplete = false

theorem quietInv_statement {st st' : ClientControllerSupervisor ι} (h : QuietInv st)
    (hinv' : Inv st') (hstep : st.statement = some st') : QuietInv st' := by
  have hnot : st.finished = false := by
    rcases statement_cases hstep with ⟨t, hpoint, ht, -⟩ | ⟨c, hpoint⟩ | ⟨c, hpoint⟩ | ⟨c, hpoint⟩ |
      hpoint
    · simpa [finished, hpoint] using (List.getElem?_eq_some_iff.mp ht).1
    all_goals simp [finished, hpoint]
  have hnone : ∀ c, st'.endingOf c = none := fun c => by
    rw [endingOf_statement hstep, h.before hnot]
  refine ⟨fun _ => hnone, fun hfin ⟨t, ht, hheight⟩ _ => ?_⟩
  obtain ⟨k, hk⟩ := List.mem_iff_getElem?.mp ht
  obtain ⟨r, hr⟩ := hinv'.entry_of_finished hfin hk
  obtain ⟨c, task, -, -, -, hended⟩ := hinv'.endingOf_entry hr hk hheight
  by_contra hcomplete
  have := hended (isResultComplete_iff.mp (by simpa using hcomplete) r (List.mem_of_getElem? hr))
  simp [hnone] at this

theorem quietInv_ends {st st' : ClientControllerSupervisor ι} {c : ι} {ending : Ending}
    (h : QuietInv st) (hends : Ends st st' c ending) (hfin : st.finished = true)
    (hkeep : st'.finals = [] → st.finals = [] ∧
      (st'.resultStack = st.resultStack ∨ st'.isResultComplete = false)) : QuietInv st' := by
  refine ⟨fun hnot => by simp [hends.finished, hfin] at hnot, fun _ hwork hnil => ?_⟩
  obtain ⟨hnil', hsame | hmissing⟩ := hkeep hnil
  · have hwork' : HasWork st := by
      rw [HasWork, ← hends.chunkedTree]
      exact hwork
    simpa only [isResultComplete, hsame] using h.waiting hfin hwork' hnil'
  · exact hmissing

variable [ToString ι]

theorem quietInv_step {st st' : ClientControllerSupervisor ι} {e : Event ι} (h : QuietInv st)
    (hinv' : Inv st') (hok : afterLoop st e = true) (hstep : st.step e = some st') :
    QuietInv st' := by
  rcases e with c | _ | ⟨c, value, idx⟩ | c | c
  · have hnone := endingOf_createThread hstep
    obtain ⟨t, hpoint, ht, -, -, rfl⟩ := createThread_cases hstep
    have hnot : st.finished = false := by
      simpa [finished, hpoint] using (List.getElem?_eq_some_iff.mp ht).1
    exact ⟨fun _ d => by rw [hnone, h.before hnot], fun hfin => by simp [finished] at hfin⟩
  · exact quietInv_statement h hinv' hstep
  · obtain ⟨hends, hdelivery, -⟩ := result_cases hstep
    refine quietInv_ends h hends hok fun hnil => ?_
    rcases hdelivery with ⟨-, hres, hfinals, -⟩ | ⟨r, -, -, hres, hfinals, -⟩ |
      ⟨r, -, -, -, hfinals, -⟩
    · exact ⟨hfinals ▸ hnil, Or.inl hres⟩
    · exact ⟨hfinals ▸ hnil, Or.inl hres⟩
    · by_cases hcomplete : st'.isResultComplete = true
      · rw [if_pos hcomplete, hnil] at hfinals
        simp at hfinals
      · rw [if_neg hcomplete] at hfinals
        exact ⟨hfinals ▸ hnil, Or.inr (by simpa using hcomplete)⟩
  · obtain ⟨hends, hres, hfinals, -⟩ := networkError_cases hstep
    exact quietInv_ends h hends hok fun hnil => ⟨hfinals ▸ hnil, Or.inl hres⟩
  · obtain ⟨hends, hres, hfinals, -⟩ := otherError_cases hstep
    exact quietInv_ends h hends hok fun hnil => ⟨hfinals ▸ hnil, Or.inl hres⟩

/-- Until an abort, no task object is deleted and results are in their entries. -/
def DeliveredInv (st : ClientControllerSupervisor ι) : Prop :=
  st.aborts = 0 → ∀ c task, st.tasks c = some task → task.deleted = false ∧
    (task.ending = some .result →
      ∃ r, st.resultStack[task.chunk]? = some r ∧ r.result.isSome = true)

omit [ToString ι] in
theorem deliveredInv_createThread {st st' : ClientControllerSupervisor ι} {c : ι}
    (h : DeliveredInv st) (hstep : st.createThread c = some st') : DeliveredInv st' := by
  obtain ⟨t, -, -, -, hnew, rfl⟩ := createThread_cases hstep
  intro hab d task htask
  by_cases hd : d = c
  · subst hd
    obtain rfl : { expr := t.toStack 1, chunk := st.it } = task := by simpa using htask
    exact ⟨rfl, fun hended => by cases hended⟩
  · exact h hab d task (by simpa [Function.update_of_ne hd] using htask)

omit [DecidableEq ι] [ToString ι] in
theorem DeliveredInv.append {st st' : ClientControllerSupervisor ι} (h : DeliveredInv st)
    (haborts : st'.aborts = st.aborts) (htasks : st'.tasks = st.tasks) {rs : List (ThreadResult ι)}
    (hres : st'.resultStack = st.resultStack ++ rs) : DeliveredInv st' := by
  intro hab d task htask
  obtain ⟨hdel, hdelivered⟩ := h (haborts ▸ hab) d task (htasks ▸ htask)
  refine ⟨hdel, fun hended => ?_⟩
  obtain ⟨r, hr, hsome⟩ := hdelivered hended
  exact ⟨r, by rw [hres, List.getElem?_append_left (List.getElem?_eq_some_iff.mp hr).1, hr], hsome⟩

omit [ToString ι] in
theorem deliveredInv_statement {st st' : ClientControllerSupervisor ι} (h : DeliveredInv st)
    (hstep : st.statement = some st') : DeliveredInv st' := by
  rcases statement_cases hstep with _ | _ | _ | ⟨c, -⟩ | _
  · exact h.append rfl rfl rfl
  · exact h
  · exact h.append rfl rfl rfl
  · intro hab d task htask
    by_cases hd : d = c
    · subst hd
      rcases hold : st.tasks d with _ | old
      · simp [setIdx, hold] at htask
      · obtain rfl : { old with idxInResultStack := some st.idx } = task := by
          simpa [setIdx, hold] using htask
        exact h hab d old hold
    · exact h hab d task (by simpa [setIdx, Function.update_of_ne hd] using htask)
  · exact h

theorem deliveredInv_result {st st' : ClientControllerSupervisor ι} {c : ι}
    {value : { i : Int // InInt i }} {idx : Nat} (h : DeliveredInv st) (hinv : Inv st)
    (hfin : st.finished = true) (hstep : st.step (.result c value idx) = some st') :
    DeliveredInv st' := by
  obtain ⟨hends, -, -, haborts, -⟩ := result_cases hstep
  intro hab
  rw [haborts] at hab
  obtain ⟨own, hown, -⟩ := hends.running
  obtain ⟨own', r, hown', hidx, hr, -, hres, -⟩ :=
    delivers_of_indexed hinv (hinv.indexed_of_finished hfin hown (h hab c own hown).1) hstep
  obtain rfl := Option.some.inj (hown.symm.trans hown')
  have hlt := (List.getElem?_eq_some_iff.mp hr).1
  intro d task' htask'
  obtain ⟨task, htask, -, hchunk, -, hdel, hending⟩ := hends.task_of_some htask'
  refine ⟨by rw [hdel (by simp), (h hab d task htask).1], fun hended => ?_⟩
  rw [hres, hchunk]
  by_cases hk : idx = task.chunk
  · exact ⟨_, by rw [hk, List.getElem?_set_self (by rwa [← hk])], rfl⟩
  · -- The entry of another task stays as it is.
    have hd : d ≠ c := by
      rintro rfl
      obtain rfl := Option.some.inj (hown.symm.trans htask)
      exact hk hidx
    rw [hending, if_neg hd] at hended
    rw [List.getElem?_set_ne hk]
    exact (h hab d task htask).2 hended

theorem deliveredInv_otherError {st st' : ClientControllerSupervisor ι} {c : ι}
    (h : DeliveredInv st) (hstep : st.step (.otherError c) = some st') : DeliveredInv st' := by
  obtain ⟨hends, hres, -, -, -, haborts⟩ := otherError_cases hstep
  intro hab d task' htask'
  rw [haborts] at hab
  obtain ⟨task, htask, -, hchunk, -, hdel, hending⟩ := hends.task_of_some htask'
  refine ⟨by rw [hdel (by simp), (h hab d task htask).1], fun hended => ?_⟩
  have hd : d ≠ c := by
    rintro rfl
    simp [hending] at hended
  rw [hending, if_neg hd] at hended
  rw [hres, hchunk]
  exact (h hab d task htask).2 hended

theorem deliveredInv_step {st st' : ClientControllerSupervisor ι} {e : Event ι}
    (h : DeliveredInv st) (hinv : Inv st) (hok : afterLoop st e = true)
    (hstep : st.step e = some st') : DeliveredInv st' := by
  rcases e with c | _ | ⟨c, value, idx⟩ | c | c
  · exact deliveredInv_createThread h hstep
  · exact deliveredInv_statement h hstep
  · exact deliveredInv_result h hinv hok hstep
  · obtain ⟨-, -, -, -, -, haborts⟩ := networkError_cases hstep
    intro hab
    omega
  · exact deliveredInv_otherError h hstep

/-! ## Every run -/

theorem aborts_iff {ok : ClientControllerSupervisor ι → Event ι → Prop}
    {st0 st : ClientControllerSupervisor ι} (hfresh : Fresh st0) (hrun : Reaches step ok st0 st) :
    0 < st.aborts ↔ ∃ c, st.endingOf c = some .networkError := by
  refine hrun.invariant
    (I := fun st => 0 < st.aborts ↔ ∃ c, st.endingOf c = some .networkError) ?_
    fun st st' e ih _ hstep => ?_
  · simp [hfresh.record.2.1, hfresh.endingOf]
  rcases e with c | _ | ⟨c, value, idx⟩ | c | c
  · have hsame : st'.aborts = st.aborts := by
      obtain ⟨t, -, -, -, -, rfl⟩ := createThread_cases hstep
      rfl
    simp only [hsame, ih, endingOf_createThread hstep]
  · have hsame : st'.aborts = st.aborts := by
      rcases statement_cases hstep with _ | _ | _ | _ | _ <;> rfl
    simp only [hsame, ih, endingOf_statement hstep]
  · obtain ⟨hends, -, -, haborts, -⟩ := result_cases hstep
    rw [haborts, ih, hends.exists_endingOf]
    simp
  · obtain ⟨hends, -, -, -, -, haborts⟩ := networkError_cases hstep
    rw [haborts, hends.exists_endingOf]
    simp
  · obtain ⟨hends, -, -, -, -, haborts⟩ := otherError_cases hstep
    rw [haborts, ih, hends.exists_endingOf]
    simp

section Runs

variable {ok : ClientControllerSupervisor ι → Event ι → Prop} {st0 st : ClientControllerSupervisor ι}
  (hfresh : Fresh st0) (hok : ∀ st e, ok st e → afterLoop st e = true) (hrun : Reaches step ok st0 st)
include hfresh hok hrun

theorem quietInv_of_reaches : QuietInv st := by
  refine hrun.invariant_of (fun t ht => inv_of_reaches hfresh ht) ⟨fun _ => hfresh.endingOf, ?_⟩
    fun st st' e _ hinv' hquiet he hstep => quietInv_step hquiet hinv' (hok st e he) hstep
  rintro hfin ⟨t, ht, -⟩
  have hlen := (finished_iff.mp hfin).2
  rw [hfresh.start.1, Nat.le_zero, List.length_eq_zero_iff] at hlen
  simp [hlen] at ht

theorem deliveredInv_of_reaches : DeliveredInv st :=
  hrun.invariant_of (fun t ht => inv_of_reaches hfresh ht)
    (fun _ c task htask => by simp [hfresh.tasks] at htask)
    fun st _ e hinv _ hdelivered he hstep => deliveredInv_step hdelivered hinv (hok st e he) hstep

theorem finalsInv_of_afterLoop : FinalsInv st := by
  refine finalsInv_of_reaches hfresh (fun st e hinv he => ?_) hrun
  have hafter := hok st e he
  rcases e with c | _ | ⟨c, value, idx⟩ | c | c
  case result => simp [inTime, hinv.length_of_finished hafter]
  all_goals rfl

theorem final_of_results (hwork : HasWork st) (hfin : st.finished = true)
    (hresults : ∀ c task, st.tasks c = some task → task.ending = some .result) :
    ∃ f, st.finals = [f] ∧ f.Complete st.chunkedTree.length := by
  have hinv := inv_of_reaches hfresh hrun
  have hfinals := finalsInv_of_afterLoop hfresh hok hrun
  have haborts : st.aborts = 0 := by
    by_contra hne
    obtain ⟨c, hc⟩ := (aborts_iff hfresh hrun).mp (Nat.pos_of_ne_zero hne)
    obtain ⟨task, htask, hending⟩ := endingOf_some.mp hc
    rw [hresults c task htask] at hending
    cases hending
  have hcomplete : st.isResultComplete = true := isResultComplete_iff.mpr fun r hr => by
    obtain ⟨k, hk⟩ := List.mem_iff_getElem?.mp hr
    obtain ⟨t, -, hentry⟩ := hinv.entry k r hk
    rcases hentry with ⟨-, hcopy⟩ | ⟨-, c, task, -, htask, hchunk, -⟩
    · rw [hcopy]
      rfl
    · obtain ⟨r', hr', hsome⟩ := (deliveredInv_of_reaches hfresh hok hrun haborts c task htask).2
        (hresults c task htask)
      rw [hchunk, hk] at hr'
      rwa [Option.some.inj hr']
  have hne : st.finals ≠ [] := fun hnil => by
    have := (quietInv_of_reaches hfresh hok hrun).waiting hfin hwork hnil
    rw [hcomplete] at this
    cases this
  obtain ⟨f, hf⟩ := List.length_eq_one_iff.mp
    (Nat.le_antisymm hfinals.once (List.length_pos_iff.mpr hne))
  exact ⟨f, hf, hfinals.complete f (by simp [hf])⟩

end Runs

/-- When the loop and all tasks have ended, the computation is complete or aborted exactly if a
task has met a network error or none has ended in another exception. -/
theorem complete_or_aborted_iff {s : List String} (hnull : ∀ v ∈ s, v ≠ ExprTree.null) {max_h : Nat}
    {st0 st : ClientControllerSupervisor ι} (hd : Dispatches s max_h st0)
    (hrun : Reaches step (fun st e => afterLoop st e = true) st0 st) (hfin : st.finished = true)
    (hended : st.allEnded) :
    ((∃ f, st.finals = [f] ∧ f.Complete st.chunkedTree.length) ∨ 0 < st.aborts) ↔
      (∃ c, st.endingOf c = some .networkError) ∨ ∀ c, st.endingOf c ≠ some .otherError := by
  have hok : ∀ (st : ClientControllerSupervisor ι) e, afterLoop st e = true → afterLoop st e = true :=
    fun _ _ h => h
  have hinv := inv_of_reaches hd.fresh hrun
  rw [aborts_iff hd.fresh hrun]
  constructor
  · rintro (⟨f, hf, -⟩ | hnetwork)
    · -- A task that ended in another exception has an entry without a result.
      refine Or.inr fun c hc => ?_
      obtain ⟨task, htask, hending⟩ := endingOf_some.mp hc
      have := (finalsInv_of_afterLoop hd.fresh hok hrun).no_finals hinv htask
        (hinv.hasEntry_of_finished hfin htask) (by simp [hending])
      simp [hf] at this
    · exact Or.inl hnetwork
  · rintro (hnetwork | hother)
    · exact Or.inr hnetwork
    · by_cases hnetwork : ∃ c, st.endingOf c = some .networkError
      · exact Or.inr hnetwork
      · refine Or.inl (final_of_results hd.fresh hok hrun ?_ hfin fun c task htask => ?_)
        · rw [HasWork, chunkedTree_of_reaches hrun]
          exact hd.hasWork hnull
        · rcases hending : task.ending with _ | _ | _ | _
          · exact absurd hending (hended c task htask)
          · rfl
          · exact absurd ⟨c, endingOf_some.mpr ⟨task, htask, hending⟩⟩ hnetwork
          · exact absurd (endingOf_some.mpr ⟨task, htask, hending⟩) (hother c)

theorem complete_of_two :
    ∃ st0 st : ClientControllerSupervisor Nat,
      Dispatches ["1", "1", "ADD", "1", "1", "ADD", "MULTIPLY"] 1 st0 ∧
      st.endingOf 7 = some .result ∧ st.endingOf 8 = some .result ∧
      (((∃ f, st.finals = [f] ∧ f.Complete st.chunkedTree.length) ∨ 0 < st.aborts) ↔
        (∃ c, st.endingOf c = some .networkError) ∨ ∀ c, st.endingOf c ≠ some .otherError) := by
  obtain ⟨st0, st, hd, hplay, hfin, hended, h7, h8⟩ :
      ∃ st0 st : ClientControllerSupervisor Nat,
        Dispatches ["1", "1", "ADD", "1", "1", "ADD", "MULTIPLY"] 1 st0 ∧
        play step afterLoop st0 [.createThread 7, .statement, .statement, .statement, .statement,
          .createThread 8, .statement, .statement, .statement, .statement, .statement, .statement,
          .result 8 ⟨2, by decide⟩ 1, .result 7 ⟨2, by decide⟩ 0] = some st ∧ st.finished = true ∧
        (st.resultStack.all fun r => r.threadId.all fun c => (st.endingOf c).isSome) = true ∧
        st.endingOf 7 = some .result ∧ st.endingOf 8 = some .result :=
    ⟨_, _, ⟨_, rfl, by decide, rfl⟩, rfl, rfl, rfl, rfl, rfl⟩
  have hrun := reaches_of_play hplay
  exact ⟨st0, st, hd, h7, h8, complete_or_aborted_iff (by decide) hd hrun hfin
    ((inv_of_reaches hd.fresh hrun).allEnded_of_entries hfin hended)⟩

/-- The only task gets a fault from the server. -/
theorem stuck_after_fault :
    ¬ ∀ (e : IntExpr) (max_h : Nat) (st0 st : ClientControllerSupervisor Nat),
      Expr.height e ≤ 30 → Dispatches e.tokens max_h st0 →
      Reaches step (fun st e => afterLoop st e = true) st0 st → st.finished = true → st.allEnded →
      (∃ f, st.finals = [f] ∧ f.Complete st.chunkedTree.length) ∨ 0 < st.aborts := by
  intro h
  let e : IntExpr := .node .add (.leaf (.ofInt 1 (by decide))) (.leaf (.ofInt 2 (by decide)))
  obtain ⟨st0, st, hd, hplay, hfin, hended, hfinals, haborts⟩ :
      ∃ st0 st : ClientControllerSupervisor Nat, Dispatches e.tokens 0 st0 ∧
        play step afterLoop st0 [.createThread 7, .statement, .statement, .statement, .statement,
          .otherError 7] = some st ∧ st.finished = true ∧
        (st.resultStack.all fun r => r.threadId.all fun c => (st.endingOf c).isSome) = true ∧
        st.finals = [] ∧ st.aborts = 0 :=
    ⟨_, _, ⟨_, rfl, by decide, rfl⟩, rfl, rfl, rfl, rfl, rfl⟩
  have hrun := reaches_of_play hplay
  rcases h e 0 st0 st (by decide) hd hrun hfin
    ((inv_of_reaches hd.fresh hrun).allEnded_of_entries hfin hended) with ⟨f, hf, -⟩ | hpos
  · simp [hfinals] at hf
  · omega

end DispCalc.ClientControllerSupervisor
