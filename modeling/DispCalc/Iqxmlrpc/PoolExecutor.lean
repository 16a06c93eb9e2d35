import DispCalc.Lib.Runs
import Mathlib.Algebra.GroupWithZero.Nat
import Mathlib.Data.List.Basic
import Mathlib.Tactic.Common

/-!
# `Pool_executor_factory`

The threads of the server that execute the methods. They take executors from one queue and wait
for a condition variable when it is empty.
-/

open Runs

namespace DispCalc.Iqxmlrpc

/-- Where a thread is in its loop. -/
inductive PoolThread (E : Type) where
  /-- Before it takes `req_queue_lock`. -/
  | free
  /-- In `req_queue_cond.wait`. -/
  | waiting
  /-- Notified, but without the lock. -/
  | woken
  | running (executor : E)
  | returned

structure PoolExecutorFactory (E : Type) where
  reqQueue : List E := []
  threads : List (PoolThread E) := []
  inDestructor : Bool := false

namespace PoolExecutorFactory

variable {E : Type}

def isWaiting : PoolThread E → Bool
  | .waiting => true
  | _ => false

def notified : PoolThread E → PoolThread E
  | .waiting => .woken
  | th => th

inductive Event (E : Type) where
  | addThreads (num : Nat)
  /-- `notify_one` wakes one of the threads that wait. -/
  | registerExecutor (executor : E) (notified : Option Nat)
  | lock (t : Nat)
  /-- `wait` may return without a reason. -/
  | wake (t : Nat)
  | resume (t : Nat)
  /-- `process_actual_execution` returns. -/
  | finish (t : Nat)
  | destructionStarted

def setThread (p : PoolExecutorFactory E) (t : Nat) (th : PoolThread E) : PoolExecutorFactory E :=
  { p with threads := p.threads.set t th }

/-- The thread takes the front of the queue, or becomes `th` if there is none. -/
def take (p : PoolExecutorFactory E) (t : Nat) (th : PoolThread E) : PoolExecutorFactory E :=
  match p.reqQueue with
  | [] => p.setThread t th
  | executor :: rest => { p.setThread t (.running executor) with reqQueue := rest }

def push (p : PoolExecutorFactory E) (executor : E) : PoolExecutorFactory E :=
  { p with reqQueue := p.reqQueue ++ [executor] }

def step (p : PoolExecutorFactory E) : Event E → Option (PoolExecutorFactory E)
  | .addThreads num => some { p with threads := p.threads ++ List.replicate num .free }
  | .registerExecutor executor none => if p.threads.any isWaiting then none else some (p.push executor)
  | .registerExecutor executor (some t) =>
    match p.threads[t]? with
    | some .waiting => some ((p.push executor).setThread t .woken)
    | _ => none
  | .lock t =>
    match p.threads[t]? with
    | some .free => some (p.take t .waiting)
    | _ => none
  | .wake t =>
    match p.threads[t]? with
    | some .waiting => some (p.setThread t .woken)
    | _ => none
  | .resume t =>
    match p.threads[t]? with
    | some .woken => some (if p.inDestructor then p.setThread t .returned else p.take t .free)
    | _ => none
  | .finish t =>
    match p.threads[t]? with
    | some (.running _) => some (p.setThread t .free)
    | _ => none
  | .destructionStarted =>
    if p.inDestructor then none
    else some { p with inDestructor := true, threads := p.threads.map notified }

/-! ## One step -/

variable {p p' : PoolExecutorFactory E}

theorem set_thread {threads : List (PoolThread E)} {t : Nat} {th : PoolThread E} (h : threads[t]? = some th) :
    ∃ before after, before.length = t ∧ threads = before ++ th :: after ∧
      ∀ th', threads.set t th' = before ++ th' :: after := by
  obtain ⟨hlt, rfl⟩ := List.getElem?_eq_some_iff.mp h
  refine ⟨threads.take t, threads.drop (t + 1), List.length_take_of_le (Nat.le_of_lt hlt), ?_, fun th' => ?_⟩
  · rw [← List.drop_eq_getElem_cons hlt, List.take_append_drop]
  · rw [List.set_eq_take_append_cons_drop, if_pos hlt]

/-- What an event does. The threads between `before` and `after` are one thread that changes. -/
inductive Step (p : PoolExecutorFactory E) : Event E → PoolExecutorFactory E → Prop where
  | addThreads (num : Nat) : Step p (.addThreads num) { p with threads := p.threads ++ List.replicate num .free }
  | push (executor : E) (h : p.threads.any isWaiting = false) :
    Step p (.registerExecutor executor none) (p.push executor)
  | notify (executor : E) (t : Nat) {before after : List (PoolThread E)}
    (h : p.threads = before ++ .waiting :: after) :
    Step p (.registerExecutor executor (some t))
      { p.push executor with threads := before ++ .woken :: after }
  | lock (t : Nat) {before after : List (PoolThread E)} {executor : E} {rest : List E}
    (h : p.threads = before ++ .free :: after) (hq : p.reqQueue = executor :: rest) :
    Step p (.lock t) { p with reqQueue := rest, threads := before ++ .running executor :: after }
  | wait (t : Nat) {before after : List (PoolThread E)} (h : p.threads = before ++ .free :: after)
    (hq : p.reqQueue = []) : Step p (.lock t) { p with threads := before ++ .waiting :: after }
  | wake (t : Nat) {before after : List (PoolThread E)} (h : p.threads = before ++ .waiting :: after) :
    Step p (.wake t) { p with threads := before ++ .woken :: after }
  | resume (t : Nat) {before after : List (PoolThread E)} {executor : E} {rest : List E}
    (h : p.threads = before ++ .woken :: after) (hd : p.inDestructor = false)
    (hq : p.reqQueue = executor :: rest) :
    Step p (.resume t) { p with reqQueue := rest, threads := before ++ .running executor :: after }
  | again (t : Nat) {before after : List (PoolThread E)} (h : p.threads = before ++ .woken :: after)
    (hd : p.inDestructor = false) (hq : p.reqQueue = []) :
    Step p (.resume t) { p with threads := before ++ .free :: after }
  | leave (t : Nat) {before after : List (PoolThread E)} (h : p.threads = before ++ .woken :: after)
    (hd : p.inDestructor = true) : Step p (.resume t) { p with threads := before ++ .returned :: after }
  | finish (t : Nat) {before after : List (PoolThread E)} {executor : E} (ht : before.length = t)
    (h : p.threads = before ++ .running executor :: after) :
    Step p (.finish t) { p with threads := before ++ .free :: after }
  | destruct (hd : p.inDestructor = false) :
    Step p .destructionStarted { p with inDestructor := true, threads := p.threads.map notified }

theorem step_of {e : Event E} (h : p.step e = some p') : Step p e p' := by
  cases e with
  | addThreads num =>
    obtain rfl := Option.some.inj h
    exact .addThreads num
  | registerExecutor executor notified =>
    cases notified with
    | none =>
      rw [step] at h
      split at h
      · cases h
      · rename_i hwait
        obtain rfl := Option.some.inj h
        exact .push executor (Bool.not_eq_true _ ▸ hwait)
    | some t =>
      rw [step] at h
      split at h
      · rename_i ht
        obtain rfl := Option.some.inj h
        obtain ⟨before, after, hlen, heq, hset⟩ := set_thread ht
        rw [setThread, push]
        simp only [hset]
        exact .notify executor t heq
      · cases h
  | lock t =>
    rw [step] at h
    split at h
    · rename_i ht
      obtain rfl := Option.some.inj h
      obtain ⟨before, after, hlen, heq, hset⟩ := set_thread ht
      unfold take setThread
      split <;> rename_i hq <;> simp only [hset]
      · exact .wait t heq hq
      · exact .lock t heq hq
    · cases h
  | wake t =>
    rw [step] at h
    split at h
    · rename_i ht
      obtain rfl := Option.some.inj h
      obtain ⟨before, after, hlen, heq, hset⟩ := set_thread ht
      rw [setThread, hset]
      exact .wake t heq
    · cases h
  | resume t =>
    rw [step] at h
    split at h
    · rename_i ht
      obtain rfl := Option.some.inj h
      obtain ⟨before, after, hlen, heq, hset⟩ := set_thread ht
      unfold take setThread
      cases hd : p.inDestructor with
      | true =>
        simp only [hset, if_true]
        exact hd ▸ .leave t heq hd
      | false =>
        simp only [hset, Bool.false_eq_true, if_false]
        split
        · rename_i hq
          exact hd ▸ .again t heq hd hq
        · rename_i hq
          exact hd ▸ .resume t heq hd hq
    · cases h
  | finish t =>
    rw [step] at h
    split at h
    · rename_i ht
      obtain rfl := Option.some.inj h
      obtain ⟨before, after, hlen, heq, hset⟩ := set_thread ht
      rw [setThread, hset]
      exact .finish t hlen heq
    · cases h
  | destructionStarted =>
    rw [step] at h
    split at h
    · cases h
    · rename_i hd
      obtain rfl := Option.some.inj h
      exact .destruct (Bool.not_eq_true _ ▸ hd)

/-! ## Every executor is taken once, in order -/

def executing : PoolThread E → Option E
  | .running executor => some executor
  | _ => none

/-- The executors that are being executed. -/
def executed (p : PoolExecutorFactory E) : List E := p.threads.filterMap executing

def registers : Event E → List E
  | .registerExecutor executor _ => [executor]
  | _ => []

def takes (p : PoolExecutorFactory E) : Event E → List E
  | .lock _ => p.reqQueue.take 1
  | .resume _ => if p.inDestructor then [] else p.reqQueue.take 1
  | _ => []

def finishes (p : PoolExecutorFactory E) : Event E → List E
  | .finish t => (p.threads[t]?.bind executing).toList
  | _ => []

/-- The pool with what has happened to its executors. -/
structure History (E : Type) where
  pool : PoolExecutorFactory E := {}
  registered : List E := []
  taken : List E := []
  finished : List E := []

def History.step (h : History E) (e : Event E) : Option (History E) :=
  (h.pool.step e).map fun pool =>
    { pool
      registered := h.registered ++ registers e
      taken := h.taken ++ takes h.pool e
      finished := h.finished ++ finishes h.pool e }

/-- The executors that the pool has. -/
def held (p : PoolExecutorFactory E) : List E := p.reqQueue ++ p.executed

structure History.Kept (h : History E) : Prop where
  order : h.registered = h.taken ++ h.pool.reqQueue
  once : h.taken.Perm (h.finished ++ h.pool.executed)

theorem queue_step {e : Event E} (h : Step p e p') : p.reqQueue ++ registers e = takes p e ++ p'.reqQueue := by
  cases h <;> simp [registers, takes, push, *]

theorem executed_between {q : PoolExecutorFactory E} {before after : List (PoolThread E)} {th : PoolThread E}
    (h : q.threads = before ++ th :: after) :
    q.executed.Perm ((executing th).toList ++ (before ++ after).filterMap executing) := by
  rw [executed, h, List.filterMap_append, List.filterMap_append, List.filterMap_cons]
  cases executing th with
  | none => exact .refl _
  | some executor => exact List.perm_middle

theorem executed_step {e : Event E} (h : Step p e p') :
    (takes p e ++ p.executed).Perm (finishes p e ++ p'.executed) := by
  have hchange : ∀ {before after : List (PoolThread E)} {th th' : PoolThread E} {q : PoolExecutorFactory E},
      p.threads = before ++ th :: after → q.threads = before ++ th' :: after →
      takes p e ++ (executing th).toList = finishes p e ++ (executing th').toList →
      (takes p e ++ p.executed).Perm (finishes p e ++ q.executed) := by
    intro before after th th' q h h' heq
    refine ((executed_between h).append_left _).trans (.trans ?_ ((executed_between h').append_left _).symm)
    rw [← List.append_assoc, heq, List.append_assoc]
  cases h with
  | addThreads num =>
    have hnone : (List.replicate num .free : List (PoolThread E)).filterMap executing = [] := by
      rw [List.filterMap_eq_nil_iff]
      intro th hth
      rw [List.eq_of_mem_replicate hth]
      rfl
    simp [executed, takes, finishes, hnone]
  | push executor h => exact .refl _
  | notify executor t h => exact hchange h rfl rfl
  | lock t h hq => exact hchange h rfl (by simp [takes, finishes, executing, hq])
  | wait t h hq => exact hchange h rfl (by simp [takes, finishes, executing, hq])
  | wake t h => exact hchange h rfl rfl
  | resume t h hd hq => exact hchange h rfl (by simp [takes, finishes, executing, hd, hq])
  | again t h hd hq => exact hchange h rfl (by simp [takes, finishes, executing, hd, hq])
  | leave t h hd => exact hchange h rfl (by simp [takes, finishes, executing, hd])
  | finish t ht h => exact hchange h rfl (by simp [takes, finishes, executing, h, ← ht])
  | destruct hd =>
    have hsame : ∀ th : PoolThread E, executing (notified th) = executing th := by
      intro th
      cases th <;> rfl
    simp [executed, takes, finishes, List.filterMap_map, hsame]

theorem held_step {e : Event E} (h : Step p e p') : (registers e ++ p.held).Perm (finishes p e ++ p'.held) := by
  calc registers e ++ p.held
    List.Perm _ (p.reqQueue ++ registers e ++ p.executed) := by
      rw [held, ← List.append_assoc]
      exact List.perm_append_comm.append_right _
    List.Perm _ (p'.reqQueue ++ (takes p e ++ p.executed)) := by
      rw [queue_step h, ← List.append_assoc]
      exact List.perm_append_comm.append_right _
    List.Perm _ (p'.reqQueue ++ (finishes p e ++ p'.executed)) := (executed_step h).append_left _
    List.Perm _ (finishes p e ++ p'.held) := by
      rw [held, ← List.append_assoc, ← List.append_assoc]
      exact List.perm_append_comm.append_right _

theorem History.Kept.step {h h' : History E} {e : Event E} (hk : h.Kept) (hs : h.step e = some h') : h'.Kept := by
  obtain ⟨horder, honce⟩ := hk
  obtain ⟨pool, hpool, rfl⟩ := Option.map_eq_some_iff.mp hs
  have hstep := step_of hpool
  refine ⟨?_, ?_⟩
  · simp only [horder, List.append_assoc, queue_step hstep]
  · calc h.taken ++ takes h.pool e
      List.Perm _ (h.finished ++ h.pool.executed ++ takes h.pool e) := honce.append_right _
      List.Perm _ (h.finished ++ (takes h.pool e ++ h.pool.executed)) := by
        rw [List.append_assoc]
        exact List.perm_append_comm.append_left _
      List.Perm _ (h.finished ++ finishes h.pool e ++ pool.executed) := by
        rw [List.append_assoc]
        exact (executed_step hstep).append_left _

/-- **No executor is lost, taken twice or overtaken.** The threads take the executors in the order
in which they were registered; each one that was taken is being executed or has been. -/
theorem executors_once {h : History E} (hr : Reaches History.step (fun _ _ => True) {} h) :
    h.registered = h.taken ++ h.pool.reqQueue ∧ h.taken.Perm (h.finished ++ h.pool.executed) := by
  have hk : h.Kept := hr.invariant ⟨rfl, List.Perm.refl _⟩ fun _ _ _ hk _ hs => hk.step hs
  exact ⟨hk.order, hk.once⟩

/-- One thread waits before the executor comes, another one does not. -/
def wakeRun : List (Event Nat) :=
  [.addThreads 2, .lock 0, .registerExecutor 5 (some 0), .registerExecutor 6 none, .lock 1, .resume 0]

theorem executors_once_of_two : ∃ h : History Nat, h.registered = [5, 6] ∧ h.pool.executed = [6, 5] ∧
    h.registered = h.taken ++ h.pool.reqQueue ∧ h.taken.Perm (h.finished ++ h.pool.executed) := by
  obtain ⟨h, hplay⟩ := Option.isSome_iff_exists.mp
    (show (play History.step (fun _ _ => true) {} wakeRun).isSome = true from rfl)
  have hrun := reaches_of_play hplay
  obtain rfl := Option.some.inj hplay
  exact ⟨_, rfl, rfl, executors_once (hrun.weaken fun _ _ _ => trivial)⟩

/-! ## No wake-up is lost -/

/-- The threads that will look at the queue before they wait. -/
def looks : PoolThread E → Bool
  | .free | .woken => true
  | _ => false

/-- There are no more executors in the queue than threads that will look, if any thread waits. -/
def Served (p : PoolExecutorFactory E) : Prop :=
  p.inDestructor = false → p.threads.any isWaiting → p.reqQueue.length ≤ p.threads.countP looks

theorem countP_between (f : PoolThread E → Bool) (before after : List (PoolThread E)) (th : PoolThread E) :
    (before ++ th :: after).countP f = (before ++ after).countP f + (f th).toNat := by
  cases hf : f th <;> simp [hf, Nat.add_assoc]

theorem any_between (f : PoolThread E → Bool) (before after : List (PoolThread E)) (th : PoolThread E) :
    (before ++ th :: after).any f = (f th || (before ++ after).any f) := by
  simp [Bool.or_left_comm]

theorem Served.step {e : Event E} (hs : Served p) (h : Step p e p') : Served p' := by
  intro hd' hwait'
  cases h with
  | addThreads num =>
    have hle := hs hd' (by simpa [isWaiting] using hwait')
    exact Nat.le_trans hle (by rw [List.countP_append]; exact Nat.le_add_right _ _)
  | push executor h => exact absurd hwait' (by simp [push, h])
  | notify executor t h =>
    have hle := hs hd' (by simp [h, isWaiting])
    simp only [h, countP_between, looks, Bool.toNat_false] at hle
    simp only [countP_between, looks, Bool.toNat_true, push, List.length_append, List.length_singleton]
    omega
  | lock t h hq =>
    simp only [any_between, isWaiting, Bool.false_or] at hwait'
    have hle := hs hd' (by simp only [h, any_between, hwait', Bool.or_true])
    simp only [h, hq, countP_between, looks, Bool.toNat_true, List.length_cons] at hle
    simp only [countP_between, looks, Bool.toNat_false]
    omega
  | wait t h hq => simp [hq]
  | wake t h =>
    have hle := hs hd' (by simp [h, isWaiting])
    simp only [h, countP_between, looks, Bool.toNat_false] at hle
    simp only [countP_between, looks, Bool.toNat_true]
    omega
  | resume t h hd hq =>
    simp only [any_between, isWaiting, Bool.false_or] at hwait'
    have hle := hs hd' (by simp only [h, any_between, hwait', Bool.or_true])
    simp only [h, hq, countP_between, looks, Bool.toNat_true, List.length_cons] at hle
    simp only [countP_between, looks, Bool.toNat_false]
    omega
  | again t h hd hq => simp [hq]
  | leave t h hd => exact absurd hd' (by simp [hd])
  | finish t ht h =>
    simp only [any_between, isWaiting, Bool.false_or] at hwait'
    have hle := hs hd' (by simp only [h, any_between, hwait', Bool.or_true])
    simp only [h, countP_between, looks, Bool.toNat_false] at hle
    simp only [countP_between, looks, Bool.toNat_true]
    omega
  | destruct hd => cases hd'

/-- **No wake-up is lost**: while a thread waits, as many threads are about to look at the queue as
there are executors in it. -/
theorem no_lost_wake_up (hr : Reaches PoolExecutorFactory.step (fun _ _ => True) {} p)
    (hd : p.inDestructor = false) (hwait : p.threads.any isWaiting) :
    p.reqQueue.length ≤ p.threads.countP looks := by
  have hserved : Served p := hr.invariant (I := Served) (fun _ hwait => absurd hwait (by simp))
    fun _ _ _ hs _ h => hs.step (step_of h)
  exact hserved hd hwait

theorem no_lost_wake_up_of_two : ∃ p : PoolExecutorFactory Nat, p.threads.any isWaiting ∧ p.reqQueue = [5] ∧
    p.reqQueue.length ≤ p.threads.countP looks := by
  obtain ⟨p, hplay⟩ := Option.isSome_iff_exists.mp
    (show (play PoolExecutorFactory.step (fun _ _ => true) ({} : PoolExecutorFactory Nat)
      [.addThreads 2, .lock 0, .lock 1, .registerExecutor 5 (some 0)]).isSome = true from rfl)
  have hrun := reaches_of_play hplay
  obtain rfl := Option.some.inj hplay
  exact ⟨_, rfl, rfl, no_lost_wake_up (hrun.weaken fun _ _ _ => trivial) rfl rfl⟩

/-! ## Progress -/

/-- Neither new work, nor new threads, nor a wake-up without a reason. -/
def Event.orderly : Event E → Prop
  | .lock _ | .resume _ | .finish _ => True
  | _ => False

/-- Executors in the queue count twice: they have still to be taken and to be executed. -/
def remaining (p : PoolExecutorFactory E) : Nat := 2 * p.reqQueue.length + p.executed.length

theorem remaining_step {e : Event E} (h : Step p e p') :
    p'.remaining + (takes p e).length + (finishes p e).length = p.remaining + 2 * (registers e).length := by
  have hqueue := congrArg List.length (queue_step h)
  have hexecuted := (executed_step h).length_eq
  simp only [List.length_append] at hqueue hexecuted
  unfold remaining
  omega

/-- No thread has left its loop, and no wake-up has been lost. -/
structure Working (p : PoolExecutorFactory E) : Prop where
  served : Served p
  stays : p.inDestructor = false → .returned ∉ p.threads

theorem Working.stays_between (hw : Working p) (hd : p.inDestructor = false) {before after : List (PoolThread E)}
    {th th' : PoolThread E} (h : p.threads = before ++ th :: after) (hne : .returned ≠ th') :
    .returned ∉ before ++ th' :: after := by
  have hnone := hw.stays hd
  simp only [h, List.mem_append, List.mem_cons, not_or] at hnone ⊢
  exact ⟨hnone.1, hne, hnone.2.2⟩

theorem Working.step {e : Event E} (hw : Working p) (h : Step p e p') : Working p' := by
  refine ⟨hw.served.step h, fun hd' => ?_⟩
  cases h with
  | addThreads num =>
    refine fun hmem => (List.mem_append.mp hmem).elim (hw.stays hd') fun hmem => ?_
    cases List.eq_of_mem_replicate hmem
  | push executor h => exact hw.stays hd'
  | notify executor t h => exact hw.stays_between hd' h nofun
  | lock t h hq => exact hw.stays_between hd' h nofun
  | wait t h hq => exact hw.stays_between hd' h nofun
  | wake t h => exact hw.stays_between hd' h nofun
  | resume t h hd hq => exact hw.stays_between hd h nofun
  | again t h hd hq => exact hw.stays_between hd h nofun
  | leave t h hd => exact absurd hd' (by simp [hd])
  | finish t ht h => exact hw.stays_between hd' h nofun
  | destruct hd => cases hd'

theorem exists_thread {f : PoolThread E → Bool} {threads : List (PoolThread E)} (h : threads.any f = true) :
    ∃ (t : Nat) (th : PoolThread E), threads[t]? = some th ∧ f th = true := by
  obtain ⟨th, hmem, hf⟩ := List.any_eq_true.mp h
  obtain ⟨t, ht⟩ := List.getElem?_of_mem hmem
  exact ⟨t, th, ht, hf⟩

theorem Working.progress (hw : Working p) (hd : p.inDestructor = false) (ht : p.threads ≠ [])
    (hleft : ¬ (p.reqQueue = [] ∧ p.executed = [])) :
    ∃ (e : Event E) (p' : PoolExecutorFactory E), e.orderly ∧ p.step e = some p' ∧ p'.remaining < p.remaining ∧
      p'.inDestructor = false ∧ p'.threads ≠ [] := by
  by_cases hrun : p.threads.any (fun th => (executing th).isSome)
  · obtain ⟨t, th, hget, hth⟩ := exists_thread hrun
    cases th with
    | running executor =>
      have hstep : p.step (.finish t) = some (p.setThread t .free) := by rw [PoolExecutorFactory.step, hget]
      have hfewer := remaining_step (step_of hstep)
      simp only [takes, finishes, registers, hget, Option.bind_some, executing, Option.toList_some,
        List.length_nil, List.length_singleton] at hfewer
      exact ⟨.finish t, _, trivial, hstep, by omega, hd, by simpa [setThread] using ht⟩
    | _ => cases hth
  · have hnone : p.executed = [] := by
      simpa [executed, List.filterMap_eq_nil_iff, List.any_eq_true] using hrun
    obtain ⟨executor, rest, hq⟩ := List.exists_cons_of_ne_nil fun hq => hleft ⟨hq, hnone⟩
    have hlooks : p.threads.any looks = true := by
      by_contra hno
      have hzero : p.threads.countP looks = 0 := by
        rw [List.countP_eq_zero]
        simpa [List.any_eq_true] using hno
      obtain ⟨th, rest', hths⟩ := List.exists_cons_of_ne_nil ht
      have hmem : th ∈ p.threads := by rw [hths]; exact List.mem_cons_self
      have hwait : isWaiting th = true := by
        cases th with
        | waiting => rfl
        | returned => exact absurd hmem (hw.stays hd)
        | running executor => exact absurd (List.any_eq_true.mpr ⟨_, hmem, rfl⟩) hrun
        | _ => exact absurd (List.any_eq_true.mpr ⟨_, hmem, rfl⟩) hno
      have hle := hw.served hd (List.any_eq_true.mpr ⟨th, hmem, hwait⟩)
      simp [hq, hzero] at hle
    obtain ⟨t, th, hget, hth⟩ := exists_thread hlooks
    have htake : ∀ e, e = Event.lock t ∨ e = .resume t → p.step e = some (p.take t .waiting) →
        ∃ (e : Event E) (p' : PoolExecutorFactory E), e.orderly ∧ p.step e = some p' ∧
          p'.remaining < p.remaining ∧ p'.inDestructor = false ∧ p'.threads ≠ [] := by
      intro e he hstep
      have hfewer := remaining_step (step_of hstep)
      refine ⟨e, _, ?_, hstep, ?_, ?_, ?_⟩
      · rcases he with rfl | rfl <;> trivial
      · rcases he with rfl | rfl <;>
        · simp [takes, finishes, registers, hd, hq] at hfewer
          omega
      · simp [take, hq, hd, setThread]
      · simpa [take, hq, setThread] using ht
    cases th with
    | free => exact htake (.lock t) (.inl rfl) (by rw [PoolExecutorFactory.step, hget])
    | woken => exact htake (.resume t) (.inr rfl) (by rw [PoolExecutorFactory.step, hget]; simp [hd, take, hq])
    | _ => cases hth

/-- The steps that a thread can still take without a new executor. -/
def weight : PoolThread E → Nat
  | .free => 1
  | .woken | .running _ => 2
  | .waiting | .returned => 0

/-- An executor in the queue counts three times: to run it is a step, and so is the wait after it. -/
def load (p : PoolExecutorFactory E) : Nat := 3 * p.reqQueue.length + (p.threads.map weight).sum

theorem load_between {before after : List (PoolThread E)} {th : PoolThread E} (h : p.threads = before ++ th :: after) :
    p.load = 3 * p.reqQueue.length + weight th + ((before ++ after).map weight).sum := by
  rw [load, h]
  simp only [List.map_append, List.map_cons, List.sum_append, List.sum_cons]
  omega

theorem load_step {e : Event E} (h : Step p e p') (he : e.orderly) (hd : p.inDestructor = false) :
    p'.inDestructor = false ∧ p'.threads ≠ [] ∧ p'.load < p.load := by
  have hless : ∀ {before after : List (PoolThread E)} {th th' : PoolThread E} {q : PoolExecutorFactory E},
      p.threads = before ++ th :: after → q.threads = before ++ th' :: after →
      3 * q.reqQueue.length + weight th' < 3 * p.reqQueue.length + weight th →
      q.threads ≠ [] ∧ q.load < p.load := by
    intro before after th th' q h h' hlt
    rw [load_between h, load_between h', h']
    exact ⟨by simp, by omega⟩
  cases h with
  | lock t h hq => exact ⟨hd, hless h rfl (by simp only [hq, weight, List.length_cons]; omega)⟩
  | wait t h hq => exact ⟨hd, hless h rfl (by simp only [weight]; omega)⟩
  | resume t h _ hq => exact ⟨hd, hless h rfl (by simp only [hq, weight, List.length_cons]; omega)⟩
  | again t h _ hq => exact ⟨hd, hless h rfl (by simp only [weight]; omega)⟩
  | leave t h hd' => exact absurd hd' (by simp [hd])
  | finish t ht h => exact ⟨hd, hless h rfl (by simp only [weight]; omega)⟩
  | _ => exact he.elim

/-- Nothing is left to execute. -/
def Idle (p : PoolExecutorFactory E) : Prop := p.reqQueue = [] ∧ p.executed = []

theorem Working.endsIn_idle (hw : Working p) (hd : p.inDestructor = false) (ht : p.threads ≠ []) :
    EndsIn PoolExecutorFactory.step (fun _ e => e.orderly) Idle p := by
  refine endsIn_of_variant (I := fun q => Working q ∧ q.inDestructor = false ∧ q.threads ≠ []) load ?_ ?_ ⟨hw, hd, ht⟩
  · rintro q q' e ⟨hw, hd, -⟩ horderly h
    obtain ⟨hd', ht', hlt⟩ := load_step (step_of h) horderly hd
    exact ⟨⟨hw.step (step_of h), hd', ht'⟩, hlt⟩
  · rintro q ⟨hw, hd, ht⟩ hstuck
    by_contra hleft
    obtain ⟨e, q', horderly, hstep, -⟩ := hw.progress hd ht hleft
    exact hstuck q' ⟨e, horderly, hstep⟩

/-- **Every executor is executed.** Whatever has happened to the pool, its threads alone empty the
queue and finish what they have taken. They do so in any order, and then they rest. -/
theorem executors_finish (hr : Reaches PoolExecutorFactory.step (fun _ _ => True) {} p)
    (hd : p.inDestructor = false) (ht : p.threads ≠ []) :
    (∃ p', Reaches PoolExecutorFactory.step (fun _ e => e.orderly) p p' ∧ p'.Idle) ∧
      EndsIn PoolExecutorFactory.step (fun _ e => e.orderly) Idle p := by
  have hw : Working p := hr.invariant (I := Working) ⟨fun _ hwait => absurd hwait (by simp), fun _ => by simp⟩
    fun _ _ _ hw _ h => hw.step (step_of h)
  have hends := hw.endsIn_idle hd ht
  exact ⟨hends.exists, hends⟩

theorem executors_finish_of_two : ∃ p : PoolExecutorFactory Nat, p.reqQueue = [5] ∧
    (∃ p', Reaches PoolExecutorFactory.step (fun _ e => e.orderly) p p' ∧ p'.Idle) ∧
      EndsIn PoolExecutorFactory.step (fun _ e => e.orderly) Idle p := by
  obtain ⟨p, hplay⟩ := Option.isSome_iff_exists.mp
    (show (play PoolExecutorFactory.step (fun _ _ => true) ({} : PoolExecutorFactory Nat)
      [.addThreads 2, .lock 0, .lock 1, .registerExecutor 5 (some 0)]).isSome = true from rfl)
  have hrun := reaches_of_play hplay
  obtain rfl := Option.some.inj hplay
  exact ⟨_, rfl, executors_finish (hrun.weaken fun _ _ _ => trivial) rfl (by simp [setThread, push, take])⟩

/-!
## The destructor

It sets `in_destructor` and notifies in one step here. A woken thread that has `req_queue_lock` and the
destructor that has `destructor_lock` can wait for each other; that is left out.
-/

/-- The threads that will not see `in_destructor`, or are not yet in `wait`. -/
def busy : PoolThread E → Bool
  | .free | .running _ => true
  | _ => false

/-- After the notification a thread that waits stays where it is. -/
def stuck (th : PoolThread E) : Bool := busy th || isWaiting th

def hasReturned : PoolThread E → Bool
  | .returned => true
  | _ => false

theorem stuck_step {e : Event E} (h : Step p e p') (he : e.orderly) (hd : p.inDestructor = true) :
    p'.inDestructor = true ∧ p'.threads.countP stuck = p.threads.countP stuck := by
  have hsame : ∀ {before after : List (PoolThread E)} {th th' : PoolThread E} {q : PoolExecutorFactory E},
      p.threads = before ++ th :: after → q.threads = before ++ th' :: after → stuck th' = stuck th →
      q.threads.countP stuck = p.threads.countP stuck := by
    intro before after th th' q h h' hth
    rw [h, h', countP_between, countP_between, hth]
  cases h with
  | lock t h hq => exact ⟨hd, hsame h rfl rfl⟩
  | wait t h hq => exact ⟨hd, hsame h rfl rfl⟩
  | resume t h hd' hq => exact absurd hd (by simp [hd'])
  | again t h hd' hq => exact absurd hd (by simp [hd'])
  | leave t h hd' => exact ⟨hd, hsame h rfl rfl⟩
  | finish t ht h => exact ⟨hd, hsame h rfl rfl⟩
  | _ => exact he.elim

theorem stuck_of_reaches {q : PoolExecutorFactory E} (hd : p.inDestructor = true)
    (hrun : Reaches PoolExecutorFactory.step (fun _ e => e.orderly) p q) :
    q.inDestructor = true ∧ q.threads.countP stuck = p.threads.countP stuck :=
  hrun.invariant (I := fun q => q.inDestructor = true ∧ q.threads.countP stuck = p.threads.countP stuck)
    ⟨hd, rfl⟩ fun s s' e hs he hstep => by
      obtain ⟨hd', hcount⟩ := stuck_step (step_of hstep) he hs.1
      exact ⟨hd', hcount.trans hs.2⟩

theorem stuck_destruct (h : p.step .destructionStarted = some p') :
    p'.inDestructor = true ∧ p'.threads.countP stuck = p.threads.countP busy := by
  cases step_of h with
  | destruct hd =>
    have hbusy : ∀ th : PoolThread E, stuck (notified th) = busy th := by
      intro th
      cases th <;> rfl
    refine ⟨rfl, ?_⟩
    rw [List.countP_map]
    exact List.countP_congr fun th _ => by simp [hbusy]

theorem resume_returns {t : Nat} (hd : p.inDestructor = true) (hget : p.threads[t]? = some .woken) :
    ∃ p', p.step (.resume t) = some p' ∧ p'.threads.countP looks < p.threads.countP looks := by
  refine ⟨p.setThread t .returned, ?_, ?_⟩
  · simp only [PoolExecutorFactory.step, hget, hd, if_true]
  · obtain ⟨before, after, -, heq, hset⟩ := set_thread hget
    rw [setThread, hset, heq, countP_between, countP_between]
    exact Nat.lt_succ_self _

/-- **The destructor waits for ever for a thread that is not waiting.** `join_all` can return, without
new work, new threads or wake-ups for no reason, just when every thread is in `wait` at the notification. -/
theorem join_all_iff (h : p.step .destructionStarted = some p') :
    (∃ q, Reaches PoolExecutorFactory.step (fun _ e => e.orderly) p' q ∧ q.threads.all hasReturned) ↔
      p.threads.any busy = false := by
  obtain ⟨hd, hcount⟩ := stuck_destruct h
  have hzero : p.threads.any busy = false ↔ p.threads.countP busy = 0 := by
    rw [List.countP_eq_zero, List.any_eq_false]
  rw [hzero, ← hcount]
  constructor
  · rintro ⟨q, hrun, hall⟩
    rw [← (stuck_of_reaches hd hrun).2, List.countP_eq_zero]
    intro th hth
    have hreturned := List.all_eq_true.mp hall th hth
    cases th with
    | returned => exact Bool.false_ne_true
    | _ => cases hreturned
  · intro hnone
    -- While a thread has not returned, it is one that was woken, and it can return.
    have hprogress : ∀ q : PoolExecutorFactory E, (q.inDestructor = true ∧ q.threads.countP stuck = 0) →
        ¬ q.threads.all hasReturned = true → ∃ (e : Event E) (q' : PoolExecutorFactory E), e.orderly ∧
          q.step e = some q' ∧ (q'.inDestructor = true ∧ q'.threads.countP stuck = 0) ∧
          q'.threads.countP looks < q.threads.countP looks := by
      rintro q ⟨hdq, hstuck⟩ hleft
      obtain ⟨th, hmem, hth⟩ : ∃ th ∈ q.threads, hasReturned th ≠ true := by
        simpa only [List.all_eq_true, not_forall, exists_prop] using hleft
      have hnot : stuck th ≠ true := List.countP_eq_zero.mp hstuck th hmem
      obtain ⟨t, hget⟩ := List.getElem?_of_mem hmem
      cases th with
      | woken =>
        obtain ⟨q', hstep, hlt⟩ := resume_returns hdq hget
        obtain ⟨hd', hcount'⟩ := stuck_step (step_of hstep) trivial hdq
        exact ⟨.resume t, q', trivial, hstep, ⟨hd', hcount'.trans hstuck⟩, hlt⟩
      | returned => exact absurd rfl hth
      | _ => exact absurd rfl hnot
    obtain ⟨q, hrun, -, hdone⟩ := exists_reaches (fun q => q.threads.countP looks) hprogress p' ⟨hd, hnone⟩
    exact ⟨q, hrun, hdone⟩

/-- The second thread executes a method when the destructor begins. -/
theorem join_all_iff_of_two :
    (∃ q, Reaches PoolExecutorFactory.step (fun _ e => e.orderly)
      (⟨[], [.woken, .running 5], true⟩ : PoolExecutorFactory Nat) q ∧ q.threads.all hasReturned) ↔
      [PoolThread.waiting, .running 5].any busy = false :=
  join_all_iff (p := ⟨[], [.waiting, .running 5], false⟩) rfl

end PoolExecutorFactory

end DispCalc.Iqxmlrpc
