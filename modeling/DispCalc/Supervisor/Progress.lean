import DispCalc.Supervisor.Endings
import Mathlib.Data.Fintype.EquivFin

/-!
# Runs that come to an end

When every task can get its answer after the loop, a run can always be continued until the
loop and all tasks have ended.
-/

open Postfix Runs

namespace DispCalc.ClientControllerSupervisor

variable {ι : Type} [DecidableEq ι] [ToString ι]

/-- The tasks end after the loop, and each with a value that is `good` for it. -/
def calm (good : ι → ClientControllerTask → { i : Int // InInt i } → Prop)
    (st : ClientControllerSupervisor ι) : Event ι → Prop
  | .createThread _ | .statement => True
  | .result c value _ => st.finished = true ∧ ∃ task, st.tasks c = some task ∧ good c task value
  | .networkError _ | .otherError _ => False

variable {good : ι → ClientControllerTask → { i : Int // InInt i } → Prop}
  {st0 st : ClientControllerSupervisor ι}

omit [DecidableEq ι] [ToString ι] in
theorem afterLoop_of_calm (st : ClientControllerSupervisor ι) (e : Event ι) (h : calm good st e) :
    afterLoop st e = true := by
  rcases e with c | _ | ⟨c, value, idx⟩ | c | c
  · rfl
  · rfl
  · exact h.1
  · exact h.elim
  · exact h.elim

theorem ending_of_calm (hfresh : Fresh st0) (hrun : Reaches step (calm good) st0 st) {c : ι}
    {ending : Ending} (hc : st.endingOf c = some ending) : ending = .result := by
  refine hrun.invariant (I := fun t => ∀ c ending, t.endingOf c = some ending → ending = .result)
    (fun c ending hc => by simp [hfresh.endingOf] at hc) (fun s s' ev ih hok hstep => ?_) c ending hc
  rcases ev with c | _ | ⟨c, value, idx⟩ | c | c
  · simpa only [endingOf_createThread hstep] using ih
  · simpa only [endingOf_statement hstep] using ih
  · intro d ending hd
    rw [(result_cases hstep).1.endingOf] at hd
    split at hd
    · exact (Option.some.inj hd).symm
    · exact ih d ending hd
  · exact hok.elim
  · exact hok.elim

theorem results_of_calm (hfresh : Fresh st0) (hrun : Reaches step (calm good) st0 st)
    (hended : st.allEnded) {c : ι} {task : ClientControllerTask} (htask : st.tasks c = some task) :
    task.ending = some .result := by
  obtain ⟨ending, hending⟩ := Option.ne_none_iff_exists'.mp (hended c task htask)
  rw [hending, ending_of_calm hfresh hrun (endingOf_some.mpr ⟨task, htask, hending⟩)]

theorem aborts_of_calm (hfresh : Fresh st0) (hrun : Reaches step (calm good) st0 st) :
    st.aborts = 0 := by
  by_contra hne
  obtain ⟨c, hc⟩ := (aborts_iff hfresh hrun).mp (Nat.pos_of_ne_zero hne)
  cases ending_of_calm hfresh hrun hc

/-! ## The loop -/

/-- The statements that the loop has still to execute, at most. -/
def statementsLeft (st : ClientControllerSupervisor ι) : Nat :=
  6 * (st.chunkedTree.length - st.it) - match st.point with
    | .test => 0
    | .created _ => 1
    | .inserted _ => 2
    | .pushed _ => 3
    | .next => 4

omit [ToString ι] in
theorem exists_fresh [Infinite ι] (h : Inv st) (hpoint : st.point = .test) :
    ∃ c, st.tasks c = none := by
  obtain ⟨c, hc⟩ := Infinite.exists_notMem_finset (st.resultStack.filterMap ThreadResult.threadId).toFinset
  refine ⟨c, ?_⟩
  by_contra hne
  obtain ⟨task, htask⟩ := Option.ne_none_iff_exists'.mp hne
  obtain ⟨t, -, htaskOf⟩ := h.task c task htask
  rcases htaskOf.entry with ⟨r, hr, hid⟩ | ⟨-, hp | hp⟩
  · exact hc (List.mem_toFinset.mpr (List.mem_filterMap.mpr ⟨r, List.mem_of_getElem? hr, hid⟩))
  · simp [hpoint] at hp
  · simp [hpoint] at hp

theorem loop_progress [Infinite ι] (h : Inv st) (hnot : ¬ st.finished = true) :
    ∃ e st', calm good st e ∧ st.step e = some st' ∧ statementsLeft st' < statementsLeft st := by
  have hbound := h.bound
  rcases hpoint : st.point with _ | c | c | c | _
  · have hlt : st.it < st.chunkedTree.length := by simpa [finished, hpoint] using hnot
    have ht := List.getElem?_eq_getElem hlt
    by_cases hheight : (st.chunkedTree[st.it]).height = 0
    · refine ⟨.statement, _, trivial, by simp [step, statement, hpoint, ht, hheight]; rfl, ?_⟩
      simp only [statementsLeft, hpoint]
      omega
    · obtain ⟨c, hc⟩ := exists_fresh h hpoint
      refine ⟨.createThread c, _, trivial, by simp [step, createThread, hpoint, ht, hheight, hc]; rfl, ?_⟩
      simp only [statementsLeft, hpoint]
      omega
  all_goals
    simp only [hpoint, Point.inside] at hbound
    refine ⟨.statement, _, trivial, by simp [step, statement, hpoint]; rfl, ?_⟩
    simp only [statementsLeft, hpoint, setIdx]
    omega

/-! ## The tasks -/

theorem task_progress (hgood : ∀ c task, st.tasks c = some task → ∃ value, good c task value)
    (h : Inv st) (hdel : DeliveredInv st) (hab : st.aborts = 0) (hfin : st.finished = true)
    (hnot : ¬ st.allEnded) :
    ∃ ev st', calm good st ev ∧ st.step ev = some st' ∧ st'.finished = true ∧
      st'.resultStack.countP (fun r => r.result.isNone) <
        st.resultStack.countP (fun r => r.result.isNone) := by
  unfold allEnded at hnot
  simp only [not_forall, not_not] at hnot
  obtain ⟨c, task, htask, hrunning⟩ := hnot
  obtain ⟨t, ht, htaskOf⟩ := h.task c task htask
  obtain ⟨value, hvalue⟩ := hgood c task htask
  have hindexed := h.indexed_of_finished hfin htask (hdel hab c task htask).1
  have hread : task.mayGetIdx task.chunk = true := by
    unfold indexed at hindexed
    simp only [htask, Option.any_some, Bool.and_eq_true] at hindexed
    obtain ⟨i, hi⟩ := Option.isSome_iff_exists.mp hindexed.1
    simp [ClientControllerTask.mayGetIdx, hi, htaskOf.index i hi]
  have haccept : ∃ st', st.step (.result c value task.chunk) = some st' := by
    simp [step, running, htask, hrunning, hread]
  obtain ⟨st', hstep⟩ := haccept
  refine ⟨.result c value task.chunk, st', ⟨hfin, task, htask, hvalue⟩, hstep, ?_, ?_⟩
  · rw [(result_cases hstep).1.finished, hfin]
  · -- The entry had no result, and now it has one.
    obtain ⟨task', r, htask', -, hr, hid, hres, -⟩ := delivers_of_indexed h hindexed hstep
    obtain ⟨hlt, hget⟩ := List.getElem?_eq_some_iff.mp hr
    have hnone : r.result.isNone = true := by
      rw [h.result_none htask (by simp [hrunning]) hr hid]
      rfl
    have hpos : 0 < st.resultStack.countP fun r => r.result.isNone :=
      List.countP_pos_iff.mpr ⟨r, List.mem_of_getElem? hr, hnone⟩
    rw [hres, List.countP_set hlt, hget, if_pos hnone]
    simp only [Option.isNone_some, Bool.false_eq_true, if_false]
    omega

theorem completes [Infinite ι] (hfresh : Fresh st0)
    (hgood : ∀ s, Reaches step (calm good) st0 s →
      ∀ c task, s.tasks c = some task → ∃ value, good c task value)
    (hrun : Reaches step (calm good) st0 st) :
    ∃ st', Reaches step (calm good) st st' ∧ st'.finished = true ∧ st'.allEnded := by
  obtain ⟨st1, hrun1, hreach1, hfin⟩ : ∃ s, Reaches step (calm good) st s ∧
      Reaches step (calm good) st0 s ∧ s.finished = true := by
    refine exists_reaches statementsLeft (fun s hs hnot => ?_) st hrun
    obtain ⟨ev, s', hok, hstep, hlt⟩ := loop_progress (inv_of_reaches hfresh hs) hnot
    exact ⟨ev, s', hok, hstep, hs.tail hok hstep, hlt⟩
  obtain ⟨st2, hrun2, ⟨-, hfin2⟩, hended⟩ : ∃ s, Reaches step (calm good) st1 s ∧
      (Reaches step (calm good) st0 s ∧ s.finished = true) ∧ s.allEnded := by
    refine exists_reaches (fun s => s.resultStack.countP fun r => r.result.isNone)
      (fun s ⟨hs, hsfin⟩ hnot => ?_) st1 ⟨hreach1, hfin⟩
    obtain ⟨ev, s', hok, hstep, hfin', hlt⟩ := task_progress (hgood s hs) (inv_of_reaches hfresh hs)
      (deliveredInv_of_reaches hfresh afterLoop_of_calm hs) (aborts_of_calm hfresh hs) hsfin hnot
    exact ⟨ev, s', hok, hstep, ⟨hs.tail hok hstep, hfin'⟩, hlt⟩
  exact ⟨st2, hrun1.trans hrun2, hfin2, hended⟩

end DispCalc.ClientControllerSupervisor
