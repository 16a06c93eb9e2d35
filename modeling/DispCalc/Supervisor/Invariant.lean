import DispCalc.Lib.Runs
import DispCalc.Supervisor.Steps

/-!
# The invariant of a supervisor

`resultStack_` follows `chunkedTree` element by element, and each task knows its place in it
once `setIdx` has run. This holds in every run, whatever the tasks do.
-/

open Runs

namespace DispCalc.ClientControllerSupervisor

variable {ι : Type}

/-! ## Statement -/

/-- The entry at `k` was made for the tree `t` at `k` in `chunkedTree`. -/
inductive EntryOf (st : ClientControllerSupervisor ι) (k : Nat) (t : ExprTree)
    (r : ThreadResult ι) : Prop where
  | copied (hheight : t.height = 0) (hr : r = ⟨none, some t.getParent⟩)
  | awaited (hheight : t.height ≠ 0) (c : ι) (task : ClientControllerTask)
      (hid : r.threadId = some c) (htask : st.tasks c = some task) (hchunk : task.chunk = k)
      (hended : r.result.isSome = true → task.ending = some .result)

def HasEntry (st : ClientControllerSupervisor ι) (c : ι) (k : Nat) : Prop :=
  ∃ r, st.resultStack[k]? = some r ∧ r.threadId = some c

/-- The task of `c` was made for the tree `t`. -/
structure TaskOf (st : ClientControllerSupervisor ι) (c : ι) (task : ClientControllerTask)
    (t : ExprTree) : Prop where
  height : t.height ≠ 0
  expr : task.expr = t.toStack 1
  entry : HasEntry st c task.chunk ∨
    task.chunk = st.it ∧ (st.point = .created c ∨ st.point = .inserted c)
  index : ∀ i, task.idxInResultStack = some i → i = task.chunk
  unset : task.idxInResultStack = none → st.point.thread = some c

structure Inv (st : ClientControllerSupervisor ι) : Prop where
  counter : st.idx = st.it
  bound : st.it + st.point.inside ≤ st.chunkedTree.length
  length : st.resultStack.length = st.it + st.point.ahead
  entry : ∀ k r, st.resultStack[k]? = some r →
    ∃ t, st.chunkedTree[k]? = some t ∧ EntryOf st k t r
  task : ∀ c task, st.tasks c = some task →
    ∃ t, st.chunkedTree[task.chunk]? = some t ∧ TaskOf st c task t
  current : ∀ c, st.point.thread = some c →
    ∃ task, st.tasks c = some task ∧ task.chunk = st.it ∧ task.idxInResultStack = none

structure Fresh (st : ClientControllerSupervisor ι) : Prop where
  start : st.it = 0 ∧ st.idx = 0 ∧ st.point = .test
  resultStack : st.resultStack = []
  tasks : ∀ c, st.tasks c = none
  record : st.finals = [] ∧ st.aborts = 0 ∧ st.outside = false

theorem Fresh.inv {st : ClientControllerSupervisor ι} (h : Fresh st) : Inv st := by
  obtain ⟨hit, hidx, hpoint⟩ := h.start
  refine ⟨by rw [hidx, hit], by simp [hit, hpoint, Point.inside], by simp [h.resultStack, hit, hpoint, Point.ahead],
    ?_, ?_, ?_⟩
  · intro k r hr
    simp [h.resultStack] at hr
  · intro c task htask
    simp [h.tasks] at htask
  · intro c hc
    simp [hpoint, Point.thread] at hc

theorem Inv.entry_unique {st : ClientControllerSupervisor ι} (h : Inv st) {c : ι}
    {task : ClientControllerTask} (htask : st.tasks c = some task) {k : Nat}
    (hk : HasEntry st c k) : k = task.chunk := by
  obtain ⟨r, hr, hid⟩ := hk
  obtain ⟨t, -, hentry⟩ := h.entry k r hr
  rcases hentry with ⟨-, hr⟩ | ⟨-, c', task', hid', htask', hchunk, -⟩
  · rw [hr] at hid
    cases hid
  · obtain rfl : c' = c := Option.some.inj (hid'.symm.trans hid)
    obtain rfl : task' = task := Option.some.inj (htask'.symm.trans htask)
    exact hchunk.symm

theorem Inv.result_none {st : ClientControllerSupervisor ι} (h : Inv st) {c : ι}
    {task : ClientControllerTask} (htask : st.tasks c = some task)
    (hending : task.ending ≠ some .result) {k : Nat} {r : ThreadResult ι}
    (hr : st.resultStack[k]? = some r) (hid : r.threadId = some c) : r.result = none := by
  obtain ⟨t, -, hentry⟩ := h.entry k r hr
  rcases hentry with ⟨-, hcopy⟩ | ⟨-, d, task', hid', htask', -, hended⟩
  · rw [hcopy] at hid
    cases hid
  · obtain rfl : c = d := Option.some.inj (hid.symm.trans hid')
    obtain rfl := Option.some.inj (htask.symm.trans htask')
    by_contra hsome
    exact hending (hended (Option.ne_none_iff_isSome.mp hsome))

/-! ## Entries and tasks -/

theorem HasEntry.append {st st' : ClientControllerSupervisor ι} {c : ι} {k : Nat}
    (h : HasEntry st c k) {rs : List (ThreadResult ι)}
    (hres : st'.resultStack = st.resultStack ++ rs) : HasEntry st' c k := by
  obtain ⟨r, hr, hid⟩ := h
  exact ⟨r, by rw [hres, List.getElem?_append_left (List.getElem?_eq_some_iff.mp hr).1, hr], hid⟩

theorem EntryOf.of_tasks {st st' : ClientControllerSupervisor ι} {k : Nat} {t : ExprTree}
    {r : ThreadResult ι} (h : EntryOf st k t r)
    (htasks : ∀ d task, st.tasks d = some task → ∃ task', st'.tasks d = some task' ∧
      task'.chunk = task.chunk ∧ task'.ending = task.ending) : EntryOf st' k t r := by
  rcases h with ⟨h1, h2⟩ | ⟨h1, c, task, h2, h3, h4, h5⟩
  · exact .copied h1 h2
  · obtain ⟨task', htask', hchunk, hending⟩ := htasks c task h3
    exact .awaited h1 c task' h2 htask' (by rw [hchunk, h4]) (by rwa [hending])

theorem TaskOf.settled {st st' : ClientControllerSupervisor ι} {c : ι} {task : ClientControllerTask}
    {t : ExprTree} (h : TaskOf st c task t) (hidle : st.point.thread ≠ some c)
    {rs : List (ThreadResult ι)} (hres : st'.resultStack = st.resultStack ++ rs) :
    TaskOf st' c task t := by
  refine ⟨h.height, h.expr, Or.inl ?_, h.index, fun hnone => absurd (h.unset hnone) hidle⟩
  rcases h.entry with hentry | ⟨-, hp | hp⟩
  · exact hentry.append hres
  · exact absurd (by rw [hp]; rfl) hidle
  · exact absurd (by rw [hp]; rfl) hidle

theorem Inv.entry_push {st st' : ClientControllerSupervisor ι} (h : Inv st)
    (hahead : st.point.ahead = 0) (hchunks : st'.chunkedTree = st.chunkedTree)
    (htasks : st'.tasks = st.tasks) {t : ExprTree} {r : ThreadResult ι}
    (ht : st.chunkedTree[st.it]? = some t) (hr : EntryOf st st.it t r)
    (hres : st'.resultStack = st.resultStack ++ [r]) :
    ∀ k r', st'.resultStack[k]? = some r' →
      ∃ t, st'.chunkedTree[k]? = some t ∧ EntryOf st' k t r' := by
  have hlen := h.length
  have hsame : ∀ d task, st.tasks d = some task → ∃ task', st'.tasks d = some task' ∧
      task'.chunk = task.chunk ∧ task'.ending = task.ending := fun d task htask =>
    ⟨task, by rw [htasks, htask], rfl, rfl⟩
  intro k r' hk
  rw [hres] at hk
  rw [hchunks]
  rcases Nat.lt_or_ge k st.resultStack.length with hlt | hge
  · rw [List.getElem?_append_left hlt] at hk
    obtain ⟨t', ht', hentry⟩ := h.entry k r' hk
    exact ⟨t', ht', hentry.of_tasks hsame⟩
  · rw [List.getElem?_append_right hge, List.getElem?_singleton] at hk
    split at hk
    · obtain rfl : k = st.it := by omega
      obtain rfl := Option.some.inj hk
      exact ⟨t, ht, hr.of_tasks hsame⟩
    · cases hk

def Writes (st st' : ClientControllerSupervisor ι) (c : ι) (ending : Ending) : Prop :=
  st'.resultStack = st.resultStack ∨
  ending = .result ∧ ∃ idx result, HasEntry st c idx ∧
    st'.resultStack = st.resultStack.set idx ⟨some c, some result⟩

theorem Delivery.writes {st st' : ClientControllerSupervisor ι} {c : ι} {result : String} {idx : Nat}
    (h : Delivery st st' c result idx) : Writes st st' c .result := by
  rcases h with ⟨-, hres, -, -⟩ | ⟨r, -, -, hres, -, -⟩ | ⟨r, hidx, hid, hres, -, -⟩
  · exact Or.inl hres
  · exact Or.inl hres
  · exact Or.inr ⟨rfl, idx, result, ⟨r, hidx, hid⟩, hres⟩

theorem HasEntry.writes {st st' : ClientControllerSupervisor ι} {c d : ι} {ending : Ending} {k : Nat}
    (h : HasEntry st d k) (hw : Writes st st' c ending) : HasEntry st' d k := by
  obtain ⟨r, hr, hid⟩ := h
  rcases hw with hres | ⟨-, idx, result, ⟨r', hr', hid'⟩, hres⟩
  · exact ⟨r, by rw [hres, hr], hid⟩
  · by_cases hk : idx = k
    · subst hk
      obtain rfl := Option.some.inj (hr.symm.trans hr')
      obtain rfl : c = d := Option.some.inj (hid'.symm.trans hid)
      exact ⟨⟨some c, some result⟩, by simp [hres, (List.getElem?_eq_some_iff.mp hr).1], rfl⟩
    · exact ⟨r, by rw [hres, List.getElem?_set_ne hk, hr], hid⟩

/-! ## The loop keeps it -/

theorem inv_copy {st : ClientControllerSupervisor ι} (h : Inv st) {t : ExprTree}
    (hpoint : st.point = .test) (ht : st.chunkedTree[st.it]? = some t) (hheight : t.height = 0) :
    Inv { st with resultStack := st.resultStack ++ [⟨none, some t.getParent⟩], point := .next } := by
  have hlt := (List.getElem?_eq_some_iff.mp ht).1
  refine ⟨h.counter, by simp [Point.inside]; omega, by simp [h.length, hpoint, Point.ahead],
    h.entry_push (by rw [hpoint]; rfl) rfl rfl ht (.copied hheight rfl) rfl,
    fun c task htask => ?_, by simp [Point.thread]⟩
  obtain ⟨t', ht', htaskOf⟩ := h.task c task htask
  exact ⟨t', ht', htaskOf.settled (by simp [hpoint, Point.thread]) rfl⟩

theorem inv_next {st : ClientControllerSupervisor ι} (h : Inv st) (hpoint : st.point = .next) :
    Inv { st with it := st.it + 1, idx := st.idx + 1, point := .test } := by
  have hbound := h.bound
  refine ⟨by simp [h.counter], by simpa [hpoint, Point.inside] using hbound,
    by simp [h.length, hpoint, Point.ahead], fun k r hr => ?_, fun d task htask => ?_,
    by simp [Point.thread]⟩
  · obtain ⟨t, ht, hentry⟩ := h.entry k r hr
    exact ⟨t, ht, hentry.of_tasks fun d task htask => ⟨task, htask, rfl, rfl⟩⟩
  · obtain ⟨t, ht, htaskOf⟩ := h.task d task htask
    exact ⟨t, ht, htaskOf.settled (by simp [hpoint, Point.thread]) (List.append_nil _).symm⟩

variable [DecidableEq ι]

theorem inv_createThread {st st' : ClientControllerSupervisor ι} {c : ι} (h : Inv st)
    (hstep : st.createThread c = some st') : Inv st' := by
  obtain ⟨t, hpoint, ht, hheight, hnew, rfl⟩ := createThread_cases hstep
  have hlt := (List.getElem?_eq_some_iff.mp ht).1
  refine ⟨h.counter, by simp [Point.inside]; omega, by simpa [hpoint, Point.ahead] using h.length,
    fun k r hr => ?_, fun d task htask => ?_, fun d hd => ?_⟩
  · obtain ⟨t', ht', hentry⟩ := h.entry k r hr
    refine ⟨t', ht', hentry.of_tasks fun d task htask => ⟨task, ?_, rfl, rfl⟩⟩
    have hd : d ≠ c := by
      rintro rfl
      rw [hnew] at htask
      cases htask
    simpa [Function.update_of_ne hd] using htask
  · by_cases hd : d = c
    · subst hd
      obtain rfl : { expr := t.toStack 1, chunk := st.it } = task := by simpa using htask
      exact ⟨t, ht, hheight, rfl, Or.inr ⟨rfl, Or.inl rfl⟩, by simp, fun _ => rfl⟩
    · obtain ⟨t', ht', htaskOf⟩ := h.task d task (by simpa [Function.update_of_ne hd] using htask)
      exact ⟨t', ht', htaskOf.settled (by simp [hpoint, Point.thread]) (List.append_nil _).symm⟩
  · obtain rfl : c = d := by simpa [Point.thread] using hd
    exact ⟨_, Function.update_self .., rfl, rfl⟩

theorem inv_insert {st : ClientControllerSupervisor ι} (h : Inv st) {c : ι}
    (hpoint : st.point = .created c) :
    Inv { st with computers := st.computers.insert c, point := .inserted c } := by
  have hbound := h.bound
  have hlen := h.length
  refine ⟨h.counter, by simpa [hpoint, Point.inside] using hbound,
    by simpa [hpoint, Point.ahead] using hlen, fun k r hr => ?_, fun d task htask => ?_,
    fun d hd => h.current d (by simpa [hpoint, Point.thread] using hd)⟩
  · obtain ⟨t, ht, hentry⟩ := h.entry k r hr
    exact ⟨t, ht, hentry.of_tasks fun d task htask => ⟨task, htask, rfl, rfl⟩⟩
  · obtain ⟨t, ht, htaskOf⟩ := h.task d task htask
    by_cases hd : c = d
    · subst hd
      refine ⟨t, ht, htaskOf.height, htaskOf.expr, ?_, htaskOf.index, fun _ => rfl⟩
      rcases htaskOf.entry with hentry | ⟨hit, -⟩
      · exact Or.inl hentry
      · exact Or.inr ⟨hit, Or.inr rfl⟩
    · exact ⟨t, ht, htaskOf.settled (by simpa [hpoint, Point.thread] using hd)
        (List.append_nil _).symm⟩

theorem inv_push {st : ClientControllerSupervisor ι} (h : Inv st) {c : ι}
    (hpoint : st.point = .inserted c) :
    Inv { st with resultStack := st.resultStack ++ [⟨some c, none⟩], point := .pushed c } := by
  have hbound := h.bound
  have hlen := h.length
  obtain ⟨task, htask, hchunk, hnone⟩ := h.current c (by rw [hpoint]; rfl)
  obtain ⟨t, ht, htaskOf⟩ := h.task c task htask
  rw [hchunk] at ht
  have hnew : EntryOf st st.it t ⟨some c, none⟩ :=
    .awaited htaskOf.height c task rfl htask hchunk (by simp)
  refine ⟨h.counter, by simpa [hpoint, Point.inside] using hbound,
    by simp [hlen, hpoint, Point.ahead], h.entry_push (by rw [hpoint]; rfl) rfl rfl ht hnew rfl,
    fun d task' htask' => ?_, fun d hd => h.current d (by simpa [hpoint, Point.thread] using hd)⟩
  obtain ⟨t', ht', htaskOf'⟩ := h.task d task' htask'
  by_cases hd : c = d
  · subst hd
    obtain rfl := Option.some.inj (htask.symm.trans htask')
    -- The new entry is at the index of the task's chunk.
    have hat : task.chunk = st.resultStack.length := by
      rw [hchunk, hlen, hpoint]
      rfl
    refine ⟨t', ht', htaskOf'.height, htaskOf'.expr, Or.inl ⟨⟨some c, none⟩, ?_, rfl⟩,
      htaskOf'.index, fun _ => rfl⟩
    rw [hat]
    simp
  · exact ⟨t', ht', htaskOf'.settled (by simpa [hpoint, Point.thread] using hd) rfl⟩

theorem inv_setIdx {st : ClientControllerSupervisor ι} (h : Inv st) {c : ι}
    (hpoint : st.point = .pushed c) : Inv { st.setIdx c with point := .next } := by
  have hbound := h.bound
  have hlen := h.length
  obtain ⟨task, htask, hchunk, hnone⟩ := h.current c (by rw [hpoint]; rfl)
  refine ⟨h.counter, by simpa [hpoint, setIdx, Point.inside] using hbound,
    by simpa [hpoint, setIdx, Point.ahead] using hlen, fun k r hr => ?_, fun d task' htask' => ?_,
    by simp [Point.thread]⟩
  · obtain ⟨t, ht, hentry⟩ := h.entry k r hr
    refine ⟨t, ht, hentry.of_tasks fun d task' htask' => ?_⟩
    by_cases hd : d = c
    · subst hd
      exact ⟨{ task' with idxInResultStack := some st.idx }, by simp [setIdx, htask'], rfl, rfl⟩
    · exact ⟨task', by simp [setIdx, Function.update_of_ne hd, htask'], rfl, rfl⟩
  · by_cases hd : c = d
    · subst hd
      obtain rfl : { task with idxInResultStack := some st.idx } = task' := by
        simpa [setIdx, htask] using htask'
      obtain ⟨t, ht, htaskOf⟩ := h.task c task htask
      refine ⟨t, ht, htaskOf.height, htaskOf.expr, Or.inl ?_, fun i hi => ?_, by simp⟩
      · rcases htaskOf.entry with hentry | ⟨-, hp | hp⟩
        · exact hentry
        · simp [hpoint] at hp
        · simp [hpoint] at hp
      · obtain rfl : st.idx = i := by simpa using hi
        exact h.counter.trans hchunk.symm
    · obtain ⟨t, ht, htaskOf⟩ := h.task d task'
        (by simpa [setIdx, Function.update_of_ne (Ne.symm hd)] using htask')
      exact ⟨t, ht, htaskOf.settled (by simpa [hpoint, Point.thread] using hd)
        (List.append_nil _).symm⟩

theorem inv_statement {st st' : ClientControllerSupervisor ι} (h : Inv st)
    (hstep : st.statement = some st') : Inv st' := by
  rcases statement_cases hstep with ⟨t, hpoint, ht, hheight⟩ | ⟨c, hpoint⟩ | ⟨c, hpoint⟩ |
    ⟨c, hpoint⟩ | hpoint
  · exact inv_copy h hpoint ht hheight
  · exact inv_insert h hpoint
  · exact inv_push h hpoint
  · exact inv_setIdx h hpoint
  · exact inv_next h hpoint

/-! ## The tasks keep it -/

theorem Ends.task_some {st st' : ClientControllerSupervisor ι} {c : ι} {ending : Ending}
    (h : Ends st st' c ending) {d : ι} {task : ClientControllerTask} (htask : st.tasks d = some task) :
    ∃ task', st'.tasks d = some task' ∧ task'.expr = task.expr ∧ task'.chunk = task.chunk ∧
      task'.idxInResultStack = task.idxInResultStack ∧
      (ending ≠ .networkError → task'.deleted = task.deleted) ∧
      task'.ending = if d = c then some ending else task.ending := by
  obtain ⟨deleted, hdel, hd⟩ := h.tasks d
  rw [htask] at hd
  exact ⟨_, hd, rfl, rfl, rfl, fun hne => by simp [hdel hne], rfl⟩

theorem Ends.task_of_some {st st' : ClientControllerSupervisor ι} {c : ι} {ending : Ending}
    (h : Ends st st' c ending) {d : ι} {task' : ClientControllerTask}
    (htask' : st'.tasks d = some task') :
    ∃ task, st.tasks d = some task ∧ task'.expr = task.expr ∧ task'.chunk = task.chunk ∧
      task'.idxInResultStack = task.idxInResultStack ∧
      (ending ≠ .networkError → task'.deleted = task.deleted) ∧
      task'.ending = if d = c then some ending else task.ending := by
  rcases htask : st.tasks d with _ | task
  · obtain ⟨deleted, -, hd⟩ := h.tasks d
    rw [htask, htask'] at hd
    cases hd
  · obtain ⟨task'', h1, h2⟩ := h.task_some htask
    obtain rfl := Option.some.inj (h1.symm.trans htask')
    exact ⟨task, rfl, h2⟩

theorem Inv.entry_ends {st st' : ClientControllerSupervisor ι} {c : ι} {ending : Ending} (h : Inv st)
    (hends : Ends st st' c ending) {k : Nat} {r r' : ThreadResult ι}
    (hr : st.resultStack[k]? = some r) (hid : r.threadId = r'.threadId)
    (hres : r'.result.isSome = true → r.result.isSome = true ∨ r.threadId = some c ∧ ending = .result)
    (hnone : r.threadId = none → r' = r) :
    ∃ t, st'.chunkedTree[k]? = some t ∧ EntryOf st' k t r' := by
  obtain ⟨own, hown, hrunning⟩ := hends.running
  obtain ⟨t, ht, hentry⟩ := h.entry k r hr
  refine ⟨t, by rw [hends.chunkedTree, ht], ?_⟩
  rcases hentry with ⟨hheight, hcopy⟩ | ⟨hheight, d, task, hid', htask, hchunk, hended⟩
  · exact .copied hheight (by rw [hnone (by rw [hcopy]), hcopy])
  · obtain ⟨task', h1, -, h2, -, -, h3⟩ := hends.task_some htask
    refine .awaited hheight d task' (by rw [← hid, hid']) h1 (by rw [h2, hchunk]) fun hsome => ?_
    by_cases hd : d = c
    · subst hd
      obtain rfl := Option.some.inj (htask.symm.trans hown)
      rcases hres hsome with hr | ⟨-, rfl⟩
      · rw [hrunning] at hended
        cases hended hr
      · simpa using h3
    · rw [h3, if_neg hd]
      rcases hres hsome with hr | ⟨hidc, -⟩
      · exact hended hr
      · exact absurd (Option.some.inj (hid'.symm.trans hidc)) hd

theorem inv_ends {st st' : ClientControllerSupervisor ι} {c : ι} {ending : Ending} (h : Inv st)
    (hends : Ends st st' c ending) (hw : Writes st st' c ending) : Inv st' := by
  have hlen : st'.resultStack.length = st.resultStack.length := by
    rcases hw with hres | ⟨-, idx, result, -, hres⟩ <;> simp [hres]
  refine ⟨by rw [hends.idx, hends.it, h.counter], ?_, ?_, fun k r' hr' => ?_, fun d task' htask' => ?_,
    fun d hd => ?_⟩
  · rw [hends.it, hends.point, hends.chunkedTree]
    exact h.bound
  · rw [hlen, hends.it, hends.point, h.length]
  · rcases hw with hres | ⟨hresult, idx, result, ⟨r, hr, hid⟩, hres⟩
    · rw [hres] at hr'
      exact h.entry_ends hends hr' rfl Or.inl fun _ => rfl
    · rw [hres] at hr'
      by_cases hk : idx = k
      · subst hk
        rw [List.getElem?_set_self (List.getElem?_eq_some_iff.mp hr).1] at hr'
        obtain rfl := Option.some.inj hr'
        exact h.entry_ends hends hr hid (fun _ => Or.inr ⟨hid, hresult⟩)
          fun hnone => by simp [hid] at hnone
      · rw [List.getElem?_set_ne hk] at hr'
        exact h.entry_ends hends hr' rfl Or.inl fun _ => rfl
  · obtain ⟨task, htask, h1, h2, h3, -, -⟩ := hends.task_of_some htask'
    obtain ⟨t, ht, htaskOf⟩ := h.task d task htask
    refine ⟨t, by rw [hends.chunkedTree, h2, ht], htaskOf.height, by rw [h1, htaskOf.expr], ?_, ?_, ?_⟩
    · rw [h2, hends.it, hends.point]
      exact htaskOf.entry.imp_left fun hentry => hentry.writes hw
    · rw [h3, h2]
      exact htaskOf.index
    · rw [h3, hends.point]
      exact htaskOf.unset
  · rw [hends.point] at hd
    obtain ⟨task, htask, hchunk, hnone⟩ := h.current d hd
    obtain ⟨task', h1, -, h2, h3, -, -⟩ := hends.task_some htask
    exact ⟨task', h1, by rw [h2, hchunk, hends.it], by rw [h3, hnone]⟩

/-! ## Every run -/

variable [ToString ι]

theorem ends_of_step {st st' : ClientControllerSupervisor ι} {e : Event ι}
    (h : st.step e = some st') :
    (∃ c, e = .createThread c ∧ st.createThread c = some st') ∨
    (e = .statement ∧ st.statement = some st') ∨
    ∃ c ending, Ends st st' c ending ∧ Writes st st' c ending := by
  rcases e with c | _ | ⟨c, value, idx⟩ | c | c
  · exact Or.inl ⟨c, rfl, h⟩
  · exact Or.inr (Or.inl ⟨rfl, h⟩)
  · obtain ⟨hends, hd, -⟩ := result_cases h
    exact Or.inr (Or.inr ⟨c, _, hends, hd.writes⟩)
  · obtain ⟨hends, hres, -⟩ := networkError_cases h
    exact Or.inr (Or.inr ⟨c, _, hends, Or.inl hres⟩)
  · obtain ⟨hends, hres, -⟩ := otherError_cases h
    exact Or.inr (Or.inr ⟨c, _, hends, Or.inl hres⟩)

theorem inv_step {st st' : ClientControllerSupervisor ι} {e : Event ι} (h : Inv st)
    (hstep : st.step e = some st') : Inv st' := by
  rcases ends_of_step hstep with ⟨c, -, hc⟩ | ⟨-, hs⟩ | ⟨c, ending, hends, hw⟩
  · exact inv_createThread h hc
  · exact inv_statement h hs
  · exact inv_ends h hends hw

theorem chunkedTree_of_step {st st' : ClientControllerSupervisor ι} {e : Event ι}
    (h : st.step e = some st') : st'.chunkedTree = st.chunkedTree := by
  rcases ends_of_step h with ⟨c, -, hc⟩ | ⟨-, hs⟩ | ⟨c, ending, hends, -⟩
  · obtain ⟨t, -, -, -, -, rfl⟩ := createThread_cases hc
    rfl
  · rcases statement_cases hs with _ | _ | _ | _ | _ <;> rfl
  · exact hends.chunkedTree

theorem chunkedTree_of_reaches {ok : ClientControllerSupervisor ι → Event ι → Prop}
    {st st' : ClientControllerSupervisor ι} (h : Reaches step ok st st') :
    st'.chunkedTree = st.chunkedTree :=
  h.invariant (I := fun s => s.chunkedTree = st.chunkedTree) rfl
    fun _ _ _ hsame _ hstep => (chunkedTree_of_step hstep).trans hsame

theorem inv_of_reaches {ok : ClientControllerSupervisor ι → Event ι → Prop}
    {st st' : ClientControllerSupervisor ι} (hfresh : Fresh st) (h : Reaches step ok st st') :
    Inv st' :=
  h.invariant hfresh.inv fun _ _ _ hinv _ hstep => inv_step hinv hstep

end DispCalc.ClientControllerSupervisor
