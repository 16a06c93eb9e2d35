import DispCalc.Supervisor.Dispatch

/-!
# Delivery of results

A task that calls `notify` after its `setIdx` finds its own entry at its index. A task that
is faster than `setIdx`, or whose object `abort` has deleted, may name any index.
-/

open Postfix Runs

namespace DispCalc.ClientControllerSupervisor

variable {ι : Type} [DecidableEq ι] [ToString ι]

/-- The task of `c` can read the index that `setIdx` gave it. -/
def indexed (st : ClientControllerSupervisor ι) (c : ι) : Bool :=
  (st.tasks c).any fun t => t.idxInResultStack.isSome && !t.deleted

/-- A result comes from a task that can read its index. -/
def afterSetIdx (st : ClientControllerSupervisor ι) : Event ι → Bool
  | .result c _ _ => st.indexed c
  | _ => true

/-- The result of task `c` goes to the entry of the chunk it was made for, which has its
identifier, and to no other. -/
def Delivers (st st' : ClientControllerSupervisor ι) (c : ι) (result : String) (idx : Nat) : Prop :=
  ∃ task r, st.tasks c = some task ∧ idx = task.chunk ∧ st.resultStack[idx]? = some r ∧
    r.threadId = some c ∧ st'.resultStack = st.resultStack.set idx { r with result := some result } ∧
    st'.outside = st.outside

theorem delivers_of_indexed {st st' : ClientControllerSupervisor ι} (h : Inv st) {c : ι}
    {value : { i : Int // InInt i }} {idx : Nat} (hindexed : st.indexed c = true)
    (hstep : st.step (.result c value idx) = some st') :
    Delivers st st' c (toString value.1) idx := by
  obtain ⟨-, hdelivery, -, -, hread⟩ := result_cases hstep
  obtain ⟨task, htask, hset⟩ : ∃ task, st.tasks c = some task ∧
      (task.idxInResultStack.isSome && !task.deleted) = true := by
    unfold indexed at hindexed
    rcases htask : st.tasks c with _ | task
    · simp [htask] at hindexed
    · exact ⟨task, rfl, by simpa [htask] using hindexed⟩
  simp only [Bool.and_eq_true, Bool.not_eq_true'] at hset
  obtain ⟨i, hi⟩ := Option.isSome_iff_exists.mp hset.1
  obtain ⟨t, ht, htaskOf⟩ := h.task c task htask
  -- The index read is the one set, and that is the task's chunk.
  have hidx : idx = task.chunk := by
    have hget := hread task htask
    simp only [ClientControllerTask.mayGetIdx, hset.2, hi, Bool.false_or, Option.all_some,
      beq_iff_eq] at hget
    exact hget ▸ htaskOf.index i hi
  have hentry : HasEntry st c task.chunk := by
    rcases htaskOf.entry with hentry | ⟨-, hp⟩
    · exact hentry
    · obtain ⟨task', htask', -, hnone⟩ := h.current c (by rcases hp with hp | hp <;> rw [hp] <;> rfl)
      obtain rfl := Option.some.inj (htask.symm.trans htask')
      rw [hnone] at hi
      cases hi
  obtain ⟨r, hr, hid⟩ := hentry
  rw [← hidx] at hr
  refine ⟨task, r, htask, hidx, hr, hid, ?_⟩
  rcases hdelivery with ⟨hnone, -, -, -⟩ | ⟨r', hr', hid', -, -, -⟩ | ⟨r', hr', hid', hres, -, hout⟩
  · rw [hr] at hnone
    cases hnone
  · obtain rfl := Option.some.inj (hr.symm.trans hr')
    exact absurd hid hid'
  · refine ⟨?_, hout⟩
    rw [hres, ← hid]

/-- In every run where results come after `setIdx` and from live task objects, each one is
delivered, and no call of `notify` uses an index outside `resultStack_`. -/
theorem results_delivered {s : List String} {max_h : Nat} {st0 st : ClientControllerSupervisor ι}
    (hd : Dispatches s max_h st0)
    (hrun : Reaches step (fun st e => afterSetIdx st e = true) st0 st) :
    st.outside = false ∧ ∀ c value idx st', afterSetIdx st (.result c value idx) = true →
      st.step (.result c value idx) = some st' → Delivers st st' c (toString value.1) idx := by
  refine ⟨?_, fun c value idx st' hindexed hstep =>
    delivers_of_indexed (inv_of_reaches hd.fresh hrun) hindexed hstep⟩
  refine hrun.invariant_of (I := Inv) (J := fun st => st.outside = false)
    (fun t ht => inv_of_reaches hd.fresh ht) hd.fresh.record.2.2 fun st st' e hinv _ hout hok hstep => ?_
  rcases e with c | _ | ⟨c, value, idx⟩ | c | c
  · obtain ⟨t, -, -, -, -, rfl⟩ := createThread_cases hstep
    exact hout
  · rcases statement_cases hstep with _ | _ | _ | _ | _ <;> exact hout
  · obtain ⟨-, -, -, -, -, -, -, hsame⟩ := delivers_of_indexed hinv hok hstep
    rw [hsame, hout]
  · obtain ⟨-, -, -, hsame, -⟩ := networkError_cases hstep
    rw [hsame, hout]
  · obtain ⟨-, -, -, hsame, -⟩ := otherError_cases hstep
    rw [hsame, hout]

theorem result_delivered_of_two :
    ∃ st0 st st' st'' : ClientControllerSupervisor Nat,
      Dispatches ["1", "1", "ADD", "1", "1", "ADD", "MULTIPLY"] 1 st0 ∧
      st.step (.result 8 ⟨2, by decide⟩ 1) = some st' ∧ Delivers st st' 8 "2" 1 ∧
      st'.step (.result 7 ⟨2, by decide⟩ 0) = some st'' ∧ Delivers st' st'' 7 "2" 0 := by
  obtain ⟨st0, st, st', st'', hd, hplay, hok, hstep, hok', hstep'⟩ :
      ∃ st0 st st' st'' : ClientControllerSupervisor Nat,
        Dispatches ["1", "1", "ADD", "1", "1", "ADD", "MULTIPLY"] 1 st0 ∧
        play step afterSetIdx st0 [.createThread 7, .statement, .statement, .statement, .statement,
          .createThread 8, .statement, .statement, .statement] = some st ∧
        afterSetIdx st (.result 8 ⟨2, by decide⟩ 1) = true ∧
        st.step (.result 8 ⟨2, by decide⟩ 1) = some st' ∧
        afterSetIdx st' (.result 7 ⟨2, by decide⟩ 0) = true ∧
        st'.step (.result 7 ⟨2, by decide⟩ 0) = some st'' :=
    ⟨_, _, _, _, ⟨_, rfl, by decide, rfl⟩, rfl, rfl, rfl, rfl, rfl⟩
  have hrun := reaches_of_play hplay
  exact ⟨st0, st, st', st'', hd, hstep, (results_delivered hd hrun).2 8 ⟨2, by decide⟩ 1 st' hok hstep, hstep',
    (results_delivered hd (hrun.tail hok hstep)).2 7 ⟨2, by decide⟩ 0 st'' hok' hstep'⟩

/-- A task that answers before `setIdx` may name an entry that is not there. -/
theorem result_lost :
    ¬ ∀ (e : IntExpr) (max_h : Nat) (st0 st st' : ClientControllerSupervisor Nat) (c : Nat)
      (value : { i : Int // InInt i }) (idx : Nat), Expr.height e ≤ 30 → Dispatches e.tokens max_h st0 →
      Reaches step (fun _ _ => True) st0 st → st.step (.result c value idx) = some st' →
      Delivers st st' c (toString value.1) idx := by
  intro h
  let e : IntExpr := .node .add (.leaf (.ofInt 1 (by decide))) (.leaf (.ofInt 2 (by decide)))
  obtain ⟨st0, st, st', hd, hplay, hstep, hout⟩ :
      ∃ st0 st st' : ClientControllerSupervisor Nat, Dispatches e.tokens 0 st0 ∧
        play step (fun _ _ => true) st0 [.createThread 7] = some st ∧
        st.step (.result 7 ⟨3, by decide⟩ 5) = some st' ∧ st.resultStack[5]? = none :=
    ⟨_, _, _, ⟨_, rfl, by decide, rfl⟩, rfl, rfl, rfl⟩
  obtain ⟨task, r, -, -, hr, -⟩ := h e 0 st0 st st' 7 _ 5 (by decide) hd
    ((reaches_of_play hplay).weaken fun _ _ _ => trivial) hstep
  rw [hout] at hr
  cases hr

end DispCalc.ClientControllerSupervisor
