import DispCalc.Supervisor.Endings

/-!
# Abort

`abort` marks nothing and stops nothing: the loop of `dispatchTree` and the other tasks go on.
It is final when the loop has no task left to start and the failed task's own entry, which
will never get a result, comes before the next one that could complete the rest.
-/

open Postfix Runs

namespace DispCalc.ClientControllerSupervisor

variable {ι : Type}

/-- The loop has no `create_thread` and no `computers_.insert` left. -/
def noTaskToCome (st : ClientControllerSupervisor ι) : Bool :=
  match st.point with
  | .created _ => false
  | .test => (st.chunkedTree.drop st.it).all fun t => t.height == 0
  | _ => (st.chunkedTree.drop (st.it + 1)).all fun t => t.height == 0

/-- The task whose entry is the next to be pushed has failed. -/
def failedBeforePush (st : ClientControllerSupervisor ι) : Bool :=
  match st.point with
  | .inserted c => st.endingOf c == some .networkError
  | _ => false

/-- A network error comes when no task is left to start, and a result that comes between an
abort and the `push_back` for the failed task finds another entry that still waits. -/
def finalAbort (st : ClientControllerSupervisor ι) : Event ι → Bool
  | .networkError _ => st.noTaskToCome
  | .result _ _ idx => !st.failedBeforePush || st.othersMissing idx
  | _ => true

theorem noTaskToCome_test {st : ClientControllerSupervisor ι} (h : st.noTaskToCome = true)
    (hpoint : st.point = .test) {t : ExprTree} (ht : st.chunkedTree[st.it]? = some t) :
    t.height = 0 := by
  unfold noTaskToCome at h
  simp only [hpoint, List.all_eq_true, beq_iff_eq] at h
  refine h t (List.mem_of_getElem? (i := 0) ?_)
  rw [List.getElem?_drop, Nat.add_zero, ht]

/-- Once there has been an abort, no task is to come. -/
def AbortInv (st : ClientControllerSupervisor ι) : Prop := 0 < st.aborts → st.noTaskToCome = true

variable [DecidableEq ι]

theorem noTaskToCome_statement {st st' : ClientControllerSupervisor ι}
    (h : st.noTaskToCome = true) (hstep : st.statement = some st') : st'.noTaskToCome = true := by
  rcases statement_cases hstep with ⟨t, hpoint, -, -⟩ | ⟨c, hpoint⟩ | ⟨c, hpoint⟩ | ⟨c, hpoint⟩ | hpoint
  · unfold noTaskToCome at h ⊢
    simp only [hpoint] at h ⊢
    rw [← List.drop_drop]
    exact List.all_eq_true.mpr fun t ht => List.all_eq_true.mp h t (List.mem_of_mem_drop ht)
  · simp [noTaskToCome, hpoint] at h
  · simpa [noTaskToCome, hpoint] using h
  · simpa [noTaskToCome, hpoint, setIdx] using h
  · simpa [noTaskToCome, hpoint] using h

theorem Ends.noTaskToCome {st st' : ClientControllerSupervisor ι} {c : ι} {ending : Ending}
    (h : Ends st st' c ending) : st'.noTaskToCome = st.noTaskToCome := by
  simp only [ClientControllerSupervisor.noTaskToCome, h.point, h.chunkedTree, h.it]

variable [ToString ι]

theorem abortInv_of_reaches {st0 st : ClientControllerSupervisor ι} (hfresh : Fresh st0)
    (hrun : Reaches step (fun st e => finalAbort st e = true) st0 st) : AbortInv st := by
  refine hrun.invariant (fun hpos => by simp [hfresh.record.2.1] at hpos)
    fun st st' e ih hok hstep => ?_
  rcases e with c | _ | ⟨c, value, idx⟩ | c | c
  · obtain ⟨t, hpoint, ht, hheight, -, rfl⟩ := createThread_cases hstep
    exact fun hpos => absurd (noTaskToCome_test (ih hpos) hpoint ht) hheight
  · have hsame : st'.aborts = st.aborts := by
      rcases statement_cases hstep with _ | _ | _ | _ | _ <;> rfl
    exact fun hpos => noTaskToCome_statement (ih (hsame ▸ hpos)) hstep
  · obtain ⟨hends, -, -, haborts, -⟩ := result_cases hstep
    exact fun hpos => by rw [hends.noTaskToCome, ih (haborts ▸ hpos)]
  · obtain ⟨hends, -⟩ := networkError_cases hstep
    exact fun _ => hends.noTaskToCome.trans hok
  · obtain ⟨hends, -, -, -, -, haborts⟩ := otherError_cases hstep
    exact fun hpos => by rw [hends.noTaskToCome, ih (haborts ▸ hpos)]

theorem no_final_after_abort {st st' : ClientControllerSupervisor ι} (hinv : Inv st)
    (htasks : st.noTaskToCome = true) (hfailed : ∃ d, st.endingOf d = some .networkError) {c : ι}
    {value : { i : Int // InInt i }} {idx : Nat}
    (hok : finalAbort st (.result c value idx) = true)
    (hstep : st.step (.result c value idx) = some st') : st'.finals = st.finals := by
  obtain ⟨hends, hdelivery, -⟩ := result_cases hstep
  rcases hdelivery with ⟨-, -, hfinals, -⟩ | ⟨r, -, -, -, hfinals, -⟩ | ⟨r, hr, hid, hres, hfinals, -⟩
  · exact hfinals
  · exact hfinals
  · rw [hfinals]
    refine if_neg fun hcomplete => ?_
    have hmissing : st.othersMissing idx = true := by
      obtain ⟨d, hd⟩ := hfailed
      obtain ⟨task, htask, hending⟩ := endingOf_some.mp hd
      obtain ⟨t, -, htaskOf⟩ := hinv.task d task htask
      rcases htaskOf.entry with ⟨r', hr', hid'⟩ | ⟨-, hp | hp⟩
      · -- The failed task has its entry, which is not the one of `c`.
        refine othersMissing_iff.mpr ⟨task.chunk, r', ?_, hr', ?_⟩
        · rintro rfl
          obtain rfl := Option.some.inj (hr.symm.trans hr')
          obtain rfl : c = d := Option.some.inj (hid.symm.trans hid')
          rw [hends.endingOf_none] at hd
          cases hd
        · exact hinv.result_none htask (by simp [hending]) hr' hid'
      · simp [noTaskToCome, hp] at htasks
      · simpa [finalAbort, failedBeforePush, hp, hd] using hok
    exact not_complete_of_othersMissing hmissing hres hcomplete

/-- In every run of which all steps meet the condition, a step after an abort starts no task,
adds none to `computers_` and runs no final computation. -/
theorem abort_final {s : List String} {max_h : Nat} {st0 st st' : ClientControllerSupervisor ι}
    {e : Event ι} (hd : Dispatches s max_h st0)
    (hrun : Reaches step (fun st e => finalAbort st e = true) st0 st) (haborted : 0 < st.aborts)
    (hok : finalAbort st e = true) (hstep : st.step e = some st') :
    (∀ c, st.tasks c = none → st'.tasks c = none) ∧ (∀ c ∈ st'.computers, c ∈ st.computers) ∧
      st'.finals = st.finals := by
  have htasks := abortInv_of_reaches hd.fresh hrun haborted
  have hkeep : ∀ {c ending}, Ends st st' c ending → ∀ d, st.tasks d = none → st'.tasks d = none := by
    intro c ending hends d hnone
    obtain ⟨deleted, -, htask⟩ := hends.tasks d
    rw [htask, hnone]
    rfl
  rcases e with c | _ | ⟨c, value, idx⟩ | c | c
  · obtain ⟨t, hpoint, ht, hheight, -, -⟩ := createThread_cases hstep
    exact absurd (noTaskToCome_test htasks hpoint ht) hheight
  · rcases statement_cases hstep with _ | ⟨c, hpoint⟩ | _ | ⟨c, -⟩ | _
    · exact ⟨fun _ h => h, fun _ h => h, rfl⟩
    · simp [noTaskToCome, hpoint] at htasks
    · exact ⟨fun _ h => h, fun _ h => h, rfl⟩
    · refine ⟨fun d hnone => ?_, fun _ h => h, rfl⟩
      by_cases hdc : d = c
      · subst hdc
        simp [setIdx, hnone]
      · simp [setIdx, Function.update_of_ne hdc, hnone]
    · exact ⟨fun _ h => h, fun _ h => h, rfl⟩
  · obtain ⟨hends, -, hcomputers, -⟩ := result_cases hstep
    exact ⟨hkeep hends, fun _ h => hcomputers ▸ h,
      no_final_after_abort (inv_of_reaches hd.fresh hrun) htasks
        ((aborts_iff hd.fresh hrun).mp haborted) hok hstep⟩
  · obtain ⟨hends, -, hfinals, -, hcomputers, -⟩ := networkError_cases hstep
    exact ⟨hkeep hends, fun _ h => by simp [hcomputers] at h, hfinals⟩
  · obtain ⟨hends, -, hfinals, -, hcomputers, -⟩ := otherError_cases hstep
    exact ⟨hkeep hends, fun _ h => hcomputers ▸ h, hfinals⟩

theorem abort_final_of_two :
    ∃ st0 st st' : ClientControllerSupervisor Nat,
      Dispatches ["1", "1", "ADD", "1", "1", "ADD", "MULTIPLY"] 1 st0 ∧
      0 < st.aborts ∧ st.step .statement = some st' ∧
      ((∀ c, st.tasks c = none → st'.tasks c = none) ∧ (∀ c ∈ st'.computers, c ∈ st.computers) ∧
        st'.finals = st.finals) := by
  -- The first task fails when the second has been started.
  obtain ⟨st0, st, st', hd, hplay, haborted, hstep⟩ :
      ∃ st0 st st' : ClientControllerSupervisor Nat,
        Dispatches ["1", "1", "ADD", "1", "1", "ADD", "MULTIPLY"] 1 st0 ∧
        play step finalAbort st0 [.createThread 7, .statement, .statement, .statement, .statement,
          .createThread 8, .statement, .networkError 7] = some st ∧ 0 < st.aborts ∧
        st.step .statement = some st' :=
    ⟨_, _, _, ⟨_, rfl, by decide, rfl⟩, rfl, by decide, rfl⟩
  exact ⟨st0, st, st', hd, haborted, hstep,
    abort_final hd (reaches_of_play hplay) haborted rfl hstep⟩

/-- The first of two tasks fails at once, and the loop goes on to start the second. -/
theorem task_started_after_abort :
    ¬ ∀ (e : IntExpr) (max_h : Nat) (st0 st st' : ClientControllerSupervisor Nat) (ev : Event Nat),
      Expr.height e ≤ 30 → Dispatches e.tokens max_h st0 →
      Reaches step (fun _ _ => True) st0 st → 0 < st.aborts → st.step ev = some st' →
      (∀ c, st.tasks c = none → st'.tasks c = none) ∧ (∀ c ∈ st'.computers, c ∈ st.computers) ∧
        st'.finals = st.finals := by
  intro h
  let one : IntExpr := .leaf (.ofInt 1 (by decide))
  let e : IntExpr := .node .multiply (.node .add one one) (.node .add one one)
  obtain ⟨st0, st, st', hd, hplay, haborted, hstep, hold, hnew⟩ :
      ∃ st0 st st' : ClientControllerSupervisor Nat, Dispatches e.tokens 1 st0 ∧
        play step (fun _ _ => true) st0 [.createThread 7, .networkError 7, .statement, .statement,
          .statement, .statement] = some st ∧ 0 < st.aborts ∧
        st.step (.createThread 8) = some st' ∧ st.tasks 8 = none ∧ (st'.tasks 8).isSome = true :=
    ⟨_, _, _, ⟨_, rfl, by decide, rfl⟩, rfl, by decide, rfl, rfl, rfl⟩
  have hnone := (h e 1 st0 st st' _ (by decide) hd
    ((reaches_of_play hplay).weaken fun _ _ _ => trivial) haborted hstep).1 8 hold
  simp [hnone] at hnew

end DispCalc.ClientControllerSupervisor
