import DispCalc.RemoteCalls
import DispCalc.Supervisor.Distributed

/-!
# The supervisor and the servers

The tasks of a supervisor call the servers of several hosts, each with its own connections. What
the supervisor reports is right, whatever fails between them.
-/

open Postfix Runs

namespace DispCalc

open Iqxmlrpc

variable {ι : Type} [DecidableEq ι] [ToString ι] {δ : Type} [StdText δ]

/-- A supervisor, the hosts, and the connections of the tasks by host and number. -/
structure Dispersed (ι δ : Type) where
  supervisor : ClientControllerSupervisor ι
  hosts : String → Network (Execution δ)
  calls : ι → Option (String × Nat)

namespace Dispersed

/-! ## Steps -/

inductive Event (ι : Type) where
  /-- A statement of the loop, a connection that is refused, or the end of a deleted task. -/
  | supervisor (e : ClientControllerSupervisor.Event ι)
  /-- The `client_` of task `c` has its connection to `host`. -/
  | execute (c : ι) (host : String)
  | host (host : String) (e : Network.Event)
  /-- The call of task `c` is over, and `getIdx()` reads `idx`. -/
  | returned (c : ι) (idx : Nat)

def isDeleted (d : Dispersed ι δ) (c : ι) : Bool :=
  (d.supervisor.tasks c).any ClientControllerTask.deleted

/-- The event of the supervisor needs no call. What a task does without its object is undefined. -/
def callFree (d : Dispersed ι δ) : ClientControllerSupervisor.Event ι → Bool
  | .createThread _ | .statement => true
  | .networkError c => (d.calls c).isNone || d.isDeleted c
  | .result c _ _ | .otherError c => d.isDeleted c

/-- How a call ends its task. -/
def eventOf (c : ι) (idx : Nat) : Except Ending IntValue → Option (ClientControllerSupervisor.Event ι)
  | .ok v => some (.result c v idx)
  | .error .networkError => some (.networkError c)
  | .error .otherError => some (.otherError c)
  | .error .result => none

/-- No task ends before the loop has. -/
def AfterLoop (d : Dispersed ι δ) : Event ι → Prop
  | .supervisor e => ClientControllerSupervisor.afterLoop d.supervisor e = true
  | .returned _ _ => d.supervisor.finished = true
  | _ => True

section Steps

variable (xml : XmlLibrary) (package : String) (lev : String → Nat → VerificationLevel)

/-- The call of task `c` for its list. -/
def callOf (δ : Type) [StdText δ] (c : ι) (host : String) (expr : List String) : Iqxmlrpc.Call :=
  callTo xml package host (ClientControllerTask.request δ expr (toString c))

/-- What the call of task `c` does to the supervisor when it is over. -/
def returnedEvent (d : Dispersed ι δ) (c : ι) (idx : Nat) : Option (ClientControllerSupervisor.Event ι) := do
  let (host, i) ← d.calls c
  let l ← (d.hosts host).links[i]?
  match l.peer with
  | .client _ (.returned result) => eventOf c idx (← ClientControllerTask.outcome xml δ result)
  | _ => none

def step (d : Dispersed ι δ) : Event ι → Option (Dispersed ι δ)
  | .supervisor e =>
    if d.callFree e then (d.supervisor.step e).map fun supervisor => { d with supervisor } else none
  | .execute c host => do
    let task ← d.supervisor.tasks c
    let n ← (d.hosts host).step (serverConfig xml δ package) (lev host)
      (.connect (some (callOf xml package δ c host task.expr)))
    if task.ending.isSome || (d.calls c).isSome then none
    else some { d with
      hosts := Function.update d.hosts host n
      calls := Function.update d.calls c (some (host, (d.hosts host).links.length)) }
  | .host host e => do
    let n ← (d.hosts host).step (serverConfig xml δ package) (lev host) e
    return { d with hosts := Function.update d.hosts host n }
  | .returned c idx => do
    let e ← d.returnedEvent xml c idx
    let supervisor ← d.supervisor.step e
    return { d with supervisor }

/-- The server accepts the call, and the documents of the call and its answers are read as they
were written. -/
structure Callable (δ : Type) [StdText δ] (c : ι) (host : String) (expr : List String) : Prop where
  accepted : (callOf xml package δ c host expr).Accepted (serverConfig xml δ package).maxReqSz
  request : xml.Reads (ClientControllerTask.request δ expr (toString c)).toXml
  value : ∀ v : IntValue, ServerMethodCompute.answer expr = .ok v.1 →
    xml.Reads (Response.ok (.int v) : Response δ).toXml
  fault : ∀ i, ServerMethodCompute.answer expr = .error (i, .badLexicalCast) →
    xml.Reads (Response.fault ⟨-1, by decide⟩ badLexicalCast : Response δ).toXml

/-- Results come in time; the calls can be made, and the servers do what they may. -/
def Allowed (d : Dispersed ι δ) : Event ι → Prop
  | .supervisor e => ClientControllerSupervisor.inTime d.supervisor e = true
  | .execute c host => ∀ task, d.supervisor.tasks c = some task → Callable xml package δ c host task.expr
  | .host host e => Network.Allowed (serverConfig xml δ package) (Serves xml) (d.hosts host) e
  | .returned c idx => ∀ e, d.returnedEvent xml c idx = some e →
    ClientControllerSupervisor.inTime d.supervisor e = true

/-- The tasks have not called yet. The servers may have been in use. -/
structure Starts (d : Dispersed ι δ) : Prop where
  hosts : ∀ host, Reaches (Network.step (serverConfig xml δ package) (lev host))
    (Network.Allowed (serverConfig xml δ package) (Serves xml)) {} (d.hosts host)
  calls : ∀ c, d.calls c = none

end Steps

/-! ## The lists of the tasks -/

theorem expr_of_step {st st' : ClientControllerSupervisor ι} {e : ClientControllerSupervisor.Event ι}
    (h : st.step e = some st') {c : ι} {task : ClientControllerTask} (htask : st.tasks c = some task) :
    ∃ task', st'.tasks c = some task' ∧ task'.expr = task.expr := by
  rcases ClientControllerSupervisor.ends_of_step h with ⟨b, -, hb⟩ | ⟨-, hs⟩ | ⟨b, ending, hends, -⟩
  · obtain ⟨t, -, -, -, hnew, rfl⟩ := ClientControllerSupervisor.createThread_cases hb
    have hne : c ≠ b := by
      rintro rfl
      rw [hnew] at htask
      cases htask
    exact ⟨task, (Function.update_of_ne hne _ _).trans htask, rfl⟩
  · rcases ClientControllerSupervisor.statement_cases hs with _ | _ | _ | ⟨b, -⟩ | _
    case setIdx =>
      by_cases hb : c = b
      · subst hb
        exact ⟨{ task with idxInResultStack := some st.idx }, by simp [ClientControllerSupervisor.setIdx, htask], rfl⟩
      · exact ⟨task, (Function.update_of_ne hb _ _).trans htask, rfl⟩
    all_goals exact ⟨task, htask, rfl⟩
  · obtain ⟨deleted, -, htasks⟩ := hends.tasks c
    rw [htask, Option.map_some] at htasks
    exact ⟨_, htasks, rfl⟩

/-! ## The connections of the tasks -/

variable {xml : XmlLibrary} {package : String} {lev : String → Nat → VerificationLevel} {d d' : Dispersed ι δ}

/-- Every connection of a task is at the call for the task's list. -/
structure Linked (xml : XmlLibrary) (package : String) (d : Dispersed ι δ) : Prop where
  kept : ∀ host, Network.Kept (serverConfig xml δ package) (Serves xml) (d.hosts host)
  calls : ∀ c host i, d.calls c = some (host, i) → ∃ task l, d.supervisor.tasks c = some task ∧
    (d.hosts host).links[i]? = some l ∧ l.peer.call = some (callOf xml package δ c host task.expr) ∧
    Callable xml package δ c host task.expr

omit [DecidableEq ι] in
theorem Starts.linked (h : Starts xml package lev d) : Linked xml package d where
  kept host := Network.kept_of_reaches (h.hosts host)
  calls c host i hc := by
    rw [h.calls c] at hc
    cases hc

theorem Linked.supervisor (h : Linked xml package d) {e : ClientControllerSupervisor.Event ι}
    {supervisor : ClientControllerSupervisor ι} (hstep : d.supervisor.step e = some supervisor) :
    Linked xml package { d with supervisor } where
  kept := h.kept
  calls c host i hc := by
    obtain ⟨task, l, htask, hl, hcall, hcallable⟩ := h.calls c host i hc
    obtain ⟨task', htask', hexpr⟩ := expr_of_step hstep htask
    exact ⟨task', l, htask', hl, by rw [hexpr, hcall], by rwa [hexpr]⟩

omit [DecidableEq ι] in
theorem Linked.host (h : Linked xml package d) {host : String} {e : Network.Event} {n : Network (Execution δ)}
    (hok : Network.Allowed (serverConfig xml δ package) (Serves xml) (d.hosts host) e)
    (hstep : (d.hosts host).step (serverConfig xml δ package) (lev host) e = some n) :
    Linked xml package { d with hosts := Function.update d.hosts host n } where
  kept host' := by
    by_cases hhost : host' = host
    · subst hhost
      simpa using (h.kept host').step hok hstep
    · simpa [Function.update_of_ne hhost] using h.kept host'
  calls c host' i hc := by
    obtain ⟨task, l, htask, hl, hcall, hcallable⟩ := h.calls c host' i hc
    by_cases hhost : host' = host
    · subst hhost
      obtain ⟨l', hl', hsame⟩ := (h.kept host').call hstep hl
      exact ⟨task, l', htask, by simpa using hl', hsame.trans hcall, hcallable⟩
    · exact ⟨task, l, htask, by simpa [Function.update_of_ne hhost] using hl, hcall, hcallable⟩

theorem Linked.execute (h : Linked xml package d) {c : ι} {host : String}
    (hok : Allowed xml package d (.execute c host)) (hstep : step xml package lev d (.execute c host) = some d') :
    Linked xml package d' ∧ d'.supervisor = d.supervisor := by
  obtain ⟨task, htask, hstep⟩ := Option.bind_eq_some_iff.mp hstep
  obtain ⟨n, hn, hstep⟩ := Option.bind_eq_some_iff.mp hstep
  split at hstep
  · cases hstep
  · obtain rfl := Option.some.inj hstep
    have hconnect : Network.Allowed (serverConfig xml δ package) (Serves xml) (d.hosts host)
        (.connect (some (callOf xml package δ c host task.expr))) := trivial
    have hlinked := h.host hconnect hn
    refine ⟨⟨hlinked.kept, fun b host' i hb => ?_⟩, rfl⟩
    by_cases hbc : b = c
    · subst hbc
      simp only [Function.update_self, Option.some.injEq, Prod.mk.injEq] at hb
      obtain ⟨rfl, rfl⟩ := hb
      obtain rfl := Option.some.inj hn
      exact ⟨task, Network.opened (some (callOf xml package δ b host task.expr)), htask, by simp, rfl, hok task htask⟩
    · simp only [Function.update_of_ne hbc] at hb
      exact hlinked.calls b host' i hb

/-! ## The supervisor's part -/

omit [DecidableEq ι] [ToString ι] in
theorem returnedEvent_eq_some {c : ι} {idx : Nat} {e : ClientControllerSupervisor.Event ι}
    (h : d.returnedEvent xml c idx = some e) :
    ∃ host i call result up down ending, d.calls c = some (host, i) ∧
      (d.hosts host).links[i]? = some ⟨.client call (.returned result), up, down⟩ ∧
      ClientControllerTask.outcome xml δ result = some ending ∧ eventOf c idx ending = some e := by
  obtain ⟨⟨host, i⟩, hc, h⟩ := Option.bind_eq_some_iff.mp h
  obtain ⟨⟨peer, up, down⟩, hl, h⟩ := Option.bind_eq_some_iff.mp h
  simp only at h
  split at h
  · rename_i call result
    obtain ⟨ending, hending, he⟩ := Option.bind_eq_some_iff.mp h
    exact ⟨host, i, call, result, up, down, ending, hc, hl, hending, he⟩
  · cases h

theorem returned_cases {c : ι} {idx : Nat} (h : step xml package lev d (.returned c idx) = some d') :
    ∃ e supervisor, d.returnedEvent xml c idx = some e ∧ d.supervisor.step e = some supervisor ∧
      d' = { d with supervisor } := by
  obtain ⟨e, he, h⟩ := Option.bind_eq_some_iff.mp h
  obtain ⟨supervisor, hs, h⟩ := Option.bind_eq_some_iff.mp h
  exact ⟨e, supervisor, he, hs, (Option.some.inj h).symm⟩

omit [DecidableEq ι] [ToString ι] [StdText δ] in
theorem isDeleted_of_callFree {c : ι} {value : IntValue} {idx : Nat} {task : ClientControllerTask}
    (h : d.callFree (.result c value idx) = true) (htask : d.supervisor.tasks c = some task) :
    task.deleted = true := by
  -- Without its object a task may do anything; otherwise a result takes a call.
  simpa [callFree, isDeleted, htask] using h

omit [DecidableEq ι] in
theorem Linked.result (h : Linked xml package d) {c : ι} {host : String} {i : Nat} {call : Iqxmlrpc.Call}
    {result : Except ClientFault (Packet Status)} {up down : List Char} {v : IntValue}
    (hc : d.calls c = some (host, i))
    (hl : (d.hosts host).links[i]? = some ⟨.client call (.returned result), up, down⟩)
    (hout : ClientControllerTask.outcome xml δ result = some (.ok v)) {task : ClientControllerTask}
    (htask : d.supervisor.tasks c = some task) :
    ∃ table, (ServerMethodCompute.execute task.expr (toString c) table).1 = .ok v.1 := by
  obtain ⟨task', l, htask', hl', hcall, hcallable⟩ := h.calls c host i hc
  obtain rfl := Option.some.inj (htask.symm.trans htask')
  obtain rfl := Option.some.inj (hl.symm.trans hl')
  obtain rfl := Option.some.inj hcall
  obtain ⟨-, hanswer⟩ := (ClientControllerTask.outcome_of_kept (h.kept host) hl hcallable.accepted hcallable.request
    hcallable.value hcallable.fault v).mp hout
  exact ⟨fun _ => none, (ServerMethodCompute.execute_fst _ _ _).trans hanswer⟩

theorem Linked.step (h : Linked xml package d) {e : Event ι} (hok : Allowed xml package d e)
    (hstep : step xml package lev d e = some d') :
    Linked xml package d' ∧ (d'.supervisor = d.supervisor ∨ ∃ ev, d.supervisor.step ev = some d'.supervisor ∧
      d.supervisor.answered ev ∧ (d.AfterLoop e → d.supervisor.afterLoop ev = true)) := by
  rcases e with e | ⟨c, host⟩ | ⟨host, e⟩ | ⟨c, idx⟩
  · rw [Dispersed.step] at hstep
    split at hstep
    · rename_i hfree
      obtain ⟨supervisor, hs, rfl⟩ := Option.map_eq_some_iff.mp hstep
      refine ⟨h.supervisor hs, Or.inr ⟨e, hs, ⟨hok, fun c value idx task he htask hkept => ?_⟩, fun hafter => hafter⟩⟩
      subst he
      rw [isDeleted_of_callFree hfree htask] at hkept
      cases hkept
    · cases hstep
  · obtain ⟨hlinked, hsame⟩ := h.execute hok hstep
    exact ⟨hlinked, Or.inl hsame⟩
  · obtain ⟨n, hn, hstep⟩ := Option.bind_eq_some_iff.mp hstep
    obtain rfl := Option.some.inj hstep
    exact ⟨h.host hok hn, Or.inl rfl⟩
  · obtain ⟨e, supervisor, he, hs, rfl⟩ := returned_cases hstep
    obtain ⟨host, i, call, result, up, down, ending, hc, hl, hout, hending⟩ := returnedEvent_eq_some he
    have htime := hok e he
    refine ⟨h.supervisor hs, Or.inr ⟨e, hs, ?_⟩⟩
    -- The task has ended in one of three ways.
    rcases ending with ⟨_ | _ | _⟩ | v
    · cases hending
    · obtain rfl := Option.some.inj hending
      exact ⟨⟨htime, fun b value idx' task hb => by cases hb⟩, fun hafter => hafter⟩
    · obtain rfl := Option.some.inj hending
      exact ⟨⟨htime, fun b value idx' task hb => by cases hb⟩, fun hafter => hafter⟩
    · obtain rfl := Option.some.inj hending
      refine ⟨⟨htime, fun b value idx' task hb htask _ => ?_⟩, fun hafter => hafter⟩
      obtain ⟨rfl, rfl, rfl⟩ := ClientControllerSupervisor.Event.result.inj hb
      exact h.result hc hl hout htask

theorem linked_of_reaches {d0 : Dispersed ι δ} (hstart : Linked xml package d0)
    (hrun : Reaches (Dispersed.step xml package lev) (Allowed xml package) d0 d) : Linked xml package d :=
  hrun.invariant hstart fun _ _ _ h hok hstep => (h.step hok hstep).1

theorem supervisor_of_reaches {d0 : Dispersed ι δ} (hstart : Linked xml package d0)
    (hrun : Reaches (Dispersed.step xml package lev) (Allowed xml package) d0 d) :
    Reaches ClientControllerSupervisor.step ClientControllerSupervisor.answered d0.supervisor d.supervisor := by
  refine hrun.simulates Dispersed.supervisor (fun _ ht => linked_of_reaches hstart ht) fun s s' e h hok hstep => ?_
  obtain ⟨-, hsame | ⟨ev, hev, hanswered, -⟩⟩ := h.step hok hstep
  · exact Or.inl hsame
  · exact Or.inr ⟨ev, hanswered, hev⟩

theorem afterLoop_of_reaches {d0 : Dispersed ι δ} (hstart : Linked xml package d0)
    (hrun : Reaches (Dispersed.step xml package lev) (fun d e => Allowed xml package d e ∧ d.AfterLoop e) d0 d) :
    Reaches ClientControllerSupervisor.step (fun st ev => st.afterLoop ev = true) d0.supervisor d.supervisor := by
  refine hrun.simulates Dispersed.supervisor
    (fun _ ht => linked_of_reaches hstart (ht.weaken fun _ _ hok => hok.1)) fun s s' e h hok hstep => ?_
  obtain ⟨-, hsame | ⟨ev, hev, -, hafter⟩⟩ := h.step hok.1 hstep
  · exact Or.inl hsame
  · exact Or.inr ⟨ev, hafter hok.2, hev⟩

/-! ## The hosts' part -/

theorem hosts_of_step {e : Event ι} (hok : Allowed xml package d e) (hstep : step xml package lev d e = some d')
    (host : String) : d'.hosts host = d.hosts host ∨
      StepIf (Network.step (serverConfig xml δ package) (lev host))
        (Network.Allowed (serverConfig xml δ package) (Serves xml)) (d.hosts host) (d'.hosts host) := by
  rcases e with e | ⟨c, host'⟩ | ⟨host', e⟩ | ⟨c, idx⟩
  · rw [Dispersed.step] at hstep
    split at hstep
    · obtain ⟨supervisor, -, rfl⟩ := Option.map_eq_some_iff.mp hstep
      exact Or.inl rfl
    · cases hstep
  · obtain ⟨task, -, hstep⟩ := Option.bind_eq_some_iff.mp hstep
    obtain ⟨n, hn, hstep⟩ := Option.bind_eq_some_iff.mp hstep
    split at hstep
    · cases hstep
    · obtain rfl := Option.some.inj hstep
      by_cases hhost : host = host'
      · subst hhost
        exact Or.inr ⟨.connect (some (callOf xml package δ c host task.expr)), trivial, by simpa using hn⟩
      · exact Or.inl (Function.update_of_ne hhost _ _)
  · obtain ⟨n, hn, hstep⟩ := Option.bind_eq_some_iff.mp hstep
    obtain rfl := Option.some.inj hstep
    by_cases hhost : host = host'
    · subst hhost
      exact Or.inr ⟨e, hok, by simpa using hn⟩
    · exact Or.inl (Function.update_of_ne hhost _ _)
  · obtain ⟨-, supervisor, -, -, rfl⟩ := returned_cases hstep
    exact Or.inl rfl

theorem hosts_of_reaches {d0 : Dispersed ι δ} (hstart : Starts xml package lev d0)
    (hrun : Reaches (Dispersed.step xml package lev) (Allowed xml package) d0 d) (host : String) :
    Reaches (Network.step (serverConfig xml δ package) (lev host))
      (Network.Allowed (serverConfig xml δ package) (Serves xml)) {} (d.hosts host) :=
  (hstart.hosts host).trans (hrun.simulates (I := fun _ => True) (fun d => d.hosts host) (fun _ _ => trivial)
    fun _ _ _ _ hok hstep => hosts_of_step hok hstep host)

theorem host_reaches {host : String} {n : Network (Execution δ)}
    (h : Reaches (Network.step (serverConfig xml δ package) (lev host))
      (Network.Allowed (serverConfig xml δ package) (Serves xml)) (d.hosts host) n) :
    Reaches (Dispersed.step xml package lev) (fun d e => Allowed xml package d e ∧ d.AfterLoop e) d
      { d with hosts := Function.update d.hosts host n } := by
  let view (n : Network (Execution δ)) : Dispersed ι δ := { d with hosts := Function.update d.hosts host n }
  have hrun : Reaches (Dispersed.step xml package lev) (fun d e => Allowed xml package d e ∧ d.AfterLoop e)
      (view (d.hosts host)) (view n) := by
    refine h.simulates view (I := fun _ => True) (fun _ _ => trivial) fun n n' e _ hok hstep => Or.inr ?_
    exact ⟨.host host e, ⟨by simpa [Allowed, view] using hok, trivial⟩, by simp [Dispersed.step, view, hstep]⟩
  have hsame : view (d.hosts host) = d := by simp [view]
  rwa [hsame] at hrun

theorem answered_reaches (lev : String → Nat → VerificationLevel) {c : ι} {host : String} {i : Nat}
    {n : Network (Execution δ)} {call : Iqxmlrpc.Call} {result : Except ClientFault (Packet Status)}
    {up down : List Char} {v : IntValue} {idx : Nat} {supervisor : ClientControllerSupervisor ι}
    (hc : d.calls c = some (host, i))
    (hrun : Reaches (Network.step (serverConfig xml δ package) (lev host))
      (Network.Allowed (serverConfig xml δ package) (Serves xml)) (d.hosts host) n)
    (hl : n.links[i]? = some ⟨.client call (.returned result), up, down⟩)
    (hout : ClientControllerTask.outcome xml δ result = some (.ok v))
    (hs : d.supervisor.step (.result c v idx) = some supervisor)
    (htime : d.supervisor.inTime (.result c v idx) = true) (hfin : d.supervisor.finished = true) :
    Reaches (Dispersed.step xml package lev) (fun d e => Allowed xml package d e ∧ d.AfterLoop e) d
      { d with hosts := Function.update d.hosts host n, supervisor } := by
  have hevent : returnedEvent xml { d with hosts := Function.update d.hosts host n } c idx =
      some (.result c v idx) := by
    simp only [returnedEvent, hc, Function.update_self, hl, hout, eventOf, Option.bind_eq_bind, Option.bind_some]
  refine (host_reaches hrun).tail (e := .returned c idx) ⟨fun e he => ?_, hfin⟩ ?_
  · obtain rfl := Option.some.inj (hevent.symm.trans he)
    exact htime
  · simp only [Dispersed.step, hevent, hs, Option.bind_eq_bind, Option.bind_some, Option.pure_def]

omit [DecidableEq ι] in
theorem Linked.outcome (lev : String → Nat → VerificationLevel) (h : Linked xml package d) {c : ι} {host : String}
    {i : Nat} {call : Iqxmlrpc.Call} {client : ClientConnection} {up down : List Char}
    {date : String} {task : ClientControllerTask} {u : IntValue}
    (hable : Network.Able (serverConfig xml δ package) (Serves xml) date (d.hosts host))
    (htask : d.supervisor.tasks c = some task) (hanswer : ServerMethodCompute.answer task.expr = .ok u.1)
    (hc : d.calls c = some (host, i)) (hl : (d.hosts host).links[i]? = some ⟨.client call client, up, down⟩)
    (hwaits : client.isClosed = false) (hopen : (d.hosts host).serverClosed i = false)
    (hfault : ∀ request fault, createMethod (δ := δ) xml request = .error fault → Answerable package date fault)
    (hvalue : Answerable package date (xml.write (Response.ok (.int u) : Response δ).toXml)) :
    ∃ n result up down, Reaches (Network.step (serverConfig xml δ package) (lev host))
        (Network.Allowed (serverConfig xml δ package) (Serves xml)) (d.hosts host) n ∧
      n.links[i]? = some ⟨.client call (.returned result), up, down⟩ ∧
      ClientControllerTask.outcome xml δ result = some (.ok u) := by
  obtain ⟨task', l, htask', hl', hcall, hcallable⟩ := h.calls c host i hc
  obtain rfl := Option.some.inj (htask.symm.trans htask')
  obtain rfl := Option.some.inj (hl.symm.trans hl')
  obtain rfl := Option.some.inj hcall
  have hbodies : ∀ m,
      (serverConfig xml δ package).createMethod (callOf xml package δ c host task.expr).content = .ok m →
      Network.Responds (serverConfig xml δ package) (Serves xml) date m := by
    intro m hm
    obtain rfl := Except.ok.inj ((ClientControllerTask.createMethod_request hcallable.request).symm.trans hm)
    have hresponse := ServerMethodCompute.response_of_value (δ := δ) hanswer (toString c) fun _ => none
    exact ⟨_, ⟨_, _, hresponse, rfl⟩, hvalue⟩
  obtain ⟨n, p, up', down', hanswered, hreturned⟩ := hable.answered (lev host) hl hcallable.accepted hwaits hopen
    (fun request fault _ => hfault request fault) hbodies
  have hrun := hanswered.weaken fun _ _ hok => hok.1
  have hkept : Network.Kept (serverConfig xml δ package) (Serves xml) n :=
    hrun.invariant (h.kept host) fun _ _ _ hn hok hstep => hn.step hok hstep
  have hout := (ClientControllerTask.outcome_of_kept hkept hreturned hcallable.accepted hcallable.request
    hcallable.value hcallable.fault u).mpr ⟨⟨p, rfl⟩, hanswer⟩
  exact ⟨n, .ok p, up', down', hrun, hreturned, hout⟩

/-! ## Two sums -/

open ClientControllerTask

/-- `(1 + 1) * (1 + 1)`. -/
def twoSums : IntExpr :=
  .node .multiply (.node .add (.leaf (.ofInt 1 (by decide))) (.leaf (.ofInt 1 (by decide))))
    (.node .add (.leaf (.ofInt 1 (by decide))) (.leaf (.ofInt 1 (by decide))))

abbrev sumStep : Dispersed Nat Unit → Event Nat → Option (Dispersed Nat Unit) :=
  Dispersed.step sumXml "p" fun _ _ => .strict

/-- The tasks 7 and 8 call. Neither does a task end, nor a server execute anything. -/
def begins (d : Dispersed Nat Unit) : Event Nat → Bool
  | .supervisor (.createThread _) | .supervisor .statement | .host _ (.server .accept)
  | .host _ (.server (.addThreads _)) => true
  | .execute c host => (c == 7 || c == 8) && host == sumHost c &&
    (d.supervisor.tasks c).map (·.expr) == some ["1", "1", "ADD"]
  | _ => false

theorem sum_callable {c : Nat} (hc : c = 7 ∨ c = 8) : Callable sumXml "p" Unit c (sumHost c) ["1", "1", "ADD"] :=
  ⟨sum_accepted hc, sum_request hc, sum_value, sum_fault⟩

theorem allowed_of_begins {d : Dispersed Nat Unit} {e : Event Nat} (h : begins d e = true) :
    Allowed sumXml "p" d e := by
  rcases e with e | ⟨c, host⟩ | ⟨host, e⟩ | ⟨c, idx⟩
  · cases e with
    | createThread c => rfl
    | statement => rfl
    | _ => cases h
  · simp only [begins, Bool.and_eq_true, Bool.or_eq_true, beq_iff_eq] at h
    obtain ⟨⟨hc, rfl⟩, hexpr⟩ := h
    intro task htask
    rw [htask, Option.map_some, Option.some.injEq] at hexpr
    rw [hexpr]
    exact sum_callable hc
  · rcases e with c | ⟨i, e⟩ | e
    · cases h
    · cases h
    · cases e with
      | accept => trivial
      | addThreads n => trivial
      | _ => cases h
  · cases h

/-- The loop, both calls, and two servers with a thread each. -/
def beginning : List (Event Nat) :=
  .supervisor (.createThread 7) :: List.replicate 4 (.supervisor .statement) ++
    .supervisor (.createThread 8) :: List.replicate 6 (.supervisor .statement) ++
    [.execute 7 "localhost", .execute 8 "remote", .host "localhost" (.server .accept),
      .host "localhost" (.server (.addThreads 1)), .host "remote" (.server .accept),
      .host "remote" (.server (.addThreads 1))]

/-- The loop has ended, and both tasks wait for their servers. -/
structure Waiting (d : Dispersed Nat Unit) : Prop where
  finished : d.supervisor.finished = true
  calls : ∀ c, c = 7 ∨ c = 8 → d.calls c = some (sumHost c, 0)
  tasks : ∀ c, c = 7 ∨ c = 8 → ∃ task, d.supervisor.tasks c = some task ∧ task.expr = ["1", "1", "ADD"] ∧
    task.ending = none
  hosts : ∀ c, c = 7 ∨ c = 8 →
    play (Network.step sumConfig fun _ => .strict) (fun _ => opens) {} (sumStart c) = some (d.hosts (sumHost c))

/-- Both results, in time. -/
structure Answered (d : Dispersed Nat Unit) (st st' : ClientControllerSupervisor Nat) : Prop where
  first : d.supervisor.step (.result 7 ⟨2, inInt_two⟩ 0) = some st
  second : st.step (.result 8 ⟨2, inInt_two⟩ 1) = some st'
  firstTime : d.supervisor.inTime (.result 7 ⟨2, inInt_two⟩ 0) = true
  secondTime : st.inTime (.result 8 ⟨2, inInt_two⟩ 1) = true
  once : st'.finals.length = 1

theorem twoSums_begin : ∃ d0 d : Dispersed Nat Unit,
    ClientControllerSupervisor.sendTasks twoSums.tokens (toSizeT 1) = .ok d0.supervisor ∧
      Starts sumXml "p" (fun _ _ => .strict) d0 ∧ Reaches sumStep (Allowed sumXml "p") d0 d ∧ Waiting d ∧
      ∃ st st', Answered d st st' := by
  obtain ⟨supervisor, d, st, st', hsend, hplay, hwaiting, hanswered⟩ :
      ∃ (supervisor : ClientControllerSupervisor Nat) (d : Dispersed Nat Unit) (st st' : _),
        ClientControllerSupervisor.sendTasks twoSums.tokens (toSizeT 1) = .ok supervisor ∧
        play sumStep begins ⟨supervisor, fun _ => {}, fun _ => none⟩ beginning = some d ∧ Waiting d ∧
        Answered d st st' := by
    refine ⟨_, _, _, _, rfl, rfl, ⟨rfl, ?_, ?_, ?_⟩, rfl, rfl, rfl, rfl, rfl⟩
    · rintro c (rfl | rfl) <;> rfl
    · rintro c (rfl | rfl) <;> exact ⟨_, rfl, rfl, rfl⟩
    · rintro c (rfl | rfl) <;> rfl
  exact ⟨_, d, hsend, ⟨fun _ => Reaches.refl _, fun _ => rfl⟩,
    (reaches_of_play hplay).weaken fun _ _ => allowed_of_begins, hwaiting, st, st', hanswered⟩

/-! ## The whole -/

/-- **The dispersed calculation is right.** The tasks of an expression that has a value call the
servers of any hosts, which serve any others at the same time. Whatever fails, the supervisor
reports at most one answer, and this is what `compute` returns on the whole expression. It takes
the results of all tasks, and these are enough if no task ends before the loop has. -/
theorem dispersed_eq_local {e : IntExpr} {v : Int} (hv : e.value = .ok v) (maxHeight : Int) {d0 : Dispersed ι δ}
    (hsend : ClientControllerSupervisor.sendTasks e.tokens (toSizeT maxHeight) = .ok d0.supervisor)
    (hstart : Starts xml package lev d0)
    (hrun : Reaches (Dispersed.step xml package lev) (Allowed xml package) d0 d) :
    (∀ f ∈ d.supervisor.finals, f.answer = Computer.compute e.tokens) ∧ d.supervisor.finals.length ≤ 1 ∧
      (d.supervisor.finals ≠ [] → ∀ c task, d.supervisor.tasks c = some task → task.ending = some .result) ∧
      (Reaches (Dispersed.step xml package lev) (fun d e => Allowed xml package d e ∧ d.AfterLoop e) d0 d →
        d.supervisor.finished = true →
        (∀ c task, d.supervisor.tasks c = some task → task.ending = some .result) → d.supervisor.finals ≠ []) := by
  obtain ⟨hanswers, honce, hresults⟩ := ClientControllerSupervisor.finals_of_answered hsend hv
    (supervisor_of_reaches hstart.linked hrun)
  exact ⟨hanswers, honce, hresults, fun hafter => ClientControllerSupervisor.finals_ne_nil hsend
    (fun _ _ h => h) (afterLoop_of_reaches hstart.linked hafter)⟩

theorem dispersed_eq_local_of_two : ∃ d0 d : Dispersed Nat Unit,
    ClientControllerSupervisor.sendTasks ["1", "1", "ADD", "1", "1", "ADD", "MULTIPLY"] (toSizeT 1) =
        .ok d0.supervisor ∧
      Starts sumXml "p" (fun _ _ => .strict) d0 ∧ Reaches sumStep (Allowed sumXml "p") d0 d ∧
      d.supervisor.finals ≠ [] ∧ ∀ f ∈ d.supervisor.finals, f.answer = .ok "4" := by
  obtain ⟨d0, d, hsend, hstart, hbegun, hwaiting, st, st', h7, h8, htime7, htime8, hfinals⟩ := twoSums_begin
  obtain ⟨n7, p7, up7, down7, hrun7, hl7, hout7⟩ := sum_outcome (Or.inl rfl) (hwaiting.hosts 7 (Or.inl rfl))
  obtain ⟨n8, p8, up8, down8, hrun8, hl8, hout8⟩ := sum_outcome (Or.inr rfl) (hwaiting.hosts 8 (Or.inr rfl))
  have hfirst := answered_reaches (fun _ _ => .strict) (hwaiting.calls 7 (Or.inl rfl)) hrun7 hl7 hout7 h7 htime7
    hwaiting.finished
  -- The other server has not moved.
  have hother : Function.update d.hosts (sumHost 7) n7 (sumHost 8) = d.hosts (sumHost 8) :=
    Function.update_of_ne (by decide) _ _
  rw [← hother] at hrun8
  have hfin : st.finished = true := by
    rw [(ClientControllerSupervisor.result_cases h7).1.finished, hwaiting.finished]
  have hsecond := answered_reaches (d := { d with hosts := Function.update d.hosts (sumHost 7) n7, supervisor := st })
    (fun _ _ => .strict) (hwaiting.calls 8 (Or.inr rfl)) hrun8 hl8 hout8 h8 htime8 hfin
  have hrun := hbegun.trans ((hfirst.trans hsecond).weaken fun _ _ hok => hok.1)
  obtain ⟨hanswers, -⟩ := dispersed_eq_local (e := twoSums) (v := 4) rfl 1 hsend hstart hrun
  exact ⟨d0, _, hsend, hstart, hrun, by rw [← List.length_pos_iff, hfinals]; decide, hanswers⟩

/-- **A waiting task can always be answered.** After the loop, whatever has failed elsewhere, the
task and its host can go on until the task has ended with its result. -/
theorem task_answered {e : IntExpr} {v : Int} (hv : e.value = .ok v) (maxHeight : Int) {d0 : Dispersed ι δ}
    (hsend : ClientControllerSupervisor.sendTasks e.tokens (toSizeT maxHeight) = .ok d0.supervisor)
    (hstart : Starts xml package lev d0)
    (hrun : Reaches (Dispersed.step xml package lev) (Allowed xml package) d0 d)
    (hfin : d.supervisor.finished = true) {c : ι} {task : ClientControllerTask}
    (htask : d.supervisor.tasks c = some task) (hrunning : task.ending = none) {host : String} {i : Nat}
    (hc : d.calls c = some (host, i)) {call : Iqxmlrpc.Call} {client : ClientConnection} {up down : List Char}
    (hl : (d.hosts host).links[i]? = some ⟨.client call client, up, down⟩) (hwaits : client.isClosed = false)
    (hopen : (d.hosts host).serverClosed i = false) (hthreads : (d.hosts host).server.pool.threads ≠ [])
    {date : String} (hheld : ∀ x ∈ (d.hosts host).server.pool.held,
      Network.Responds (serverConfig xml δ package) (Serves xml) date x.method)
    (hfault : ∀ request fault, createMethod (δ := δ) xml request = .error fault → Answerable package date fault)
    (hvalue : ∀ u : IntValue, ServerMethodCompute.answer task.expr = .ok u.1 →
      Answerable package date (xml.write (Response.ok (.int u) : Response δ).toXml)) :
    ∃ d', Reaches (Dispersed.step xml package lev) (fun d e => Allowed xml package d e ∧ d.AfterLoop e) d d' ∧
      d'.supervisor.endingOf c = some .result := by
  have hlinked := linked_of_reaches hstart.linked hrun
  have hsupervisor := supervisor_of_reaches hstart.linked hrun
  obtain ⟨hinv, u, hanswer⟩ := ClientControllerSupervisor.answer_of_task hsend hv hsupervisor htask
  have hable := Network.able_of_reaches (hosts_of_reaches hstart hrun host) hthreads hheld
  obtain ⟨n, result, up', down', hanswered, hreturned, hout⟩ :=
    hlinked.outcome lev hable htask hanswer hc hl hwaits hopen hfault (hvalue u hanswer)
  obtain ⟨supervisor, hs⟩ : ∃ supervisor,
      d.supervisor.step (.result c u (task.idxInResultStack.getD 0)) = some supervisor := by
    have hread : task.mayGetIdx (task.idxInResultStack.getD 0) = true := by
      rcases hidx : task.idxInResultStack with _ | idx <;> simp [ClientControllerTask.mayGetIdx, hidx]
    simp [ClientControllerSupervisor.step, ClientControllerSupervisor.running, htask, hrunning, hread]
  refine ⟨_, answered_reaches lev hc hanswered hreturned hout hs ?_ hfin, ?_⟩
  · simp [ClientControllerSupervisor.inTime, hinv.length_of_finished hfin]
  · rw [(ClientControllerSupervisor.result_cases hs).1.endingOf, if_pos rfl]

/-- Each of two tasks can be answered. -/
theorem task_answered_of_two : ∃ d0 d : Dispersed Nat Unit,
    ClientControllerSupervisor.sendTasks ["1", "1", "ADD", "1", "1", "ADD", "MULTIPLY"] (toSizeT 1) =
        .ok d0.supervisor ∧
      Starts sumXml "p" (fun _ _ => .strict) d0 ∧ Reaches sumStep (Allowed sumXml "p") d0 d ∧
      ∀ c, c = 7 ∨ c = 8 → d.supervisor.endingOf c = none ∧
        ∃ d', Reaches sumStep (fun d e => Allowed sumXml "p" d e ∧ d.AfterLoop e) d d' ∧
          d'.supervisor.endingOf c = some .result := by
  obtain ⟨d0, d, hsend, hstart, hbegun, hwaiting, -⟩ := twoSums_begin
  refine ⟨d0, d, hsend, hstart, hbegun, fun c hc => ?_⟩
  obtain ⟨task, htask, hexpr, hrunning⟩ := hwaiting.tasks c hc
  obtain ⟨n, hplay, hlink, hthreads, hqueue, hclosed⟩ := sum_waits c
  obtain rfl := Option.some.inj ((hwaiting.hosts c hc).symm.trans hplay)
  have hheld : (d.hosts (sumHost c)).server.pool.held = [] := by
    simp [PoolExecutorFactory.held, PoolExecutorFactory.executed, PoolExecutorFactory.executing, hthreads, hqueue]
  have hvalue : ∀ u : IntValue, ServerMethodCompute.answer task.expr = .ok u.1 →
      Answerable "p" "now" (sumXml.write (Response.ok (.int u) : Response Unit).toXml) := by
    intro u hu
    rw [hexpr] at hu
    obtain rfl : u = ⟨2, inInt_two⟩ := Subtype.ext (Except.ok.inj (hu.symm.trans answer_sum))
    exact sum_answerable (by decide +kernel)
  refine ⟨by simp [ClientControllerSupervisor.endingOf, htask, hrunning], ?_⟩
  exact task_answered (e := twoSums) (v := 4) rfl 1 hsend hstart hbegun hwaiting.finished htask hrunning
    (hwaiting.calls c hc) hlink rfl hclosed (by simp [hthreads]) (by simp [hheld]) sum_faults hvalue

end Dispersed

end DispCalc
