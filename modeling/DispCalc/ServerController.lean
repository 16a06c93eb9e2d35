import DispCalc.Lib.Results
import DispCalc.Lib.Runs
import DispCalc.ServerMethods

/-!
# `ServerController`

One server executes any number of requests at the same time. They share `__actual_status`,
in which each posts its operations under the identifier that its client chose.
-/

open Runs

namespace DispCalc

/-! ## `postStat`, statement by statement -/

def eraseStat (ident : String) (table : StatusTable) : StatusTable :=
  fun key => if key = ident then none else table key

/-- `insert` does not replace an entry. -/
def insertStat (ident stat : String) (table : StatusTable) : StatusTable :=
  fun key => if key = ident then some ((table ident).getD stat) else table key

theorem postStat_eq (stat ident : String) (table : StatusTable) :
    postStat stat ident table = insertStat ident stat (eraseStat ident table) := by
  funext key
  unfold postStat insertStat eraseStat
  split
  · simp
  · rfl

/-- An execution of `ServerMethodCompute::execute`: the values it has not reached, its
variables, and the text that it holds the mutex for. `posted` is its last text in the table,
which the source does not record. -/
structure Request (γ : Type) where
  client : γ
  identifier : String
  rest : List String
  state : ServerMethodCompute.State := {}
  pending : Option String := none
  posted : Option String := none
  ended : Bool := false

/-- The requests in the order of their start. `author` is the request that an entry of the
table is from, which the source does not record either. -/
structure ServerController (γ : Type) where
  requests : List (Request γ) := []
  actualStatus : StatusTable := fun _ => none
  globalMutex : Option Nat := none
  author : String → Option Nat := fun _ => none

namespace ServerController

variable {γ : Type}

inductive Event (γ : Type) where
  | start (client : γ) (identifier : String) (params : List String)
  | iterate (i : Nat)
  | insert (i : Nat)
  | finish (i : Nat)

/-- Request `i`, when it is being executed and is not inside `postStat`. -/
def running (s : ServerController γ) (i : Nat) : Option (Request γ) :=
  s.requests[i]?.filter fun r => !r.ended && r.pending.isNone

def update (s : ServerController γ) (i : Nat) (r : Request γ) : ServerController γ :=
  { s with requests := s.requests.set i r }

/-- A failed cast ends a request. After undefined behaviour there is no next step. -/
def iterate (s : ServerController γ) (i : Nat) (r : Request γ) (pos : String) (rest : List String) :
    Option (ServerController γ) :=
  match ServerMethodCompute.step r.state pos with
  | .error .badLexicalCast => some (s.update i { r with ended := true })
  | .error _ => none
  | .ok (state, none) => some (s.update i { r with rest, state })
  | .ok (state, some stat) =>
    if s.globalMutex = none then
      some { s.update i { r with rest, state, pending := some stat } with
        actualStatus := eraseStat r.identifier s.actualStatus, globalMutex := some i }
    else none

/-- The identifiers of the live threads of a client differ, so it makes no request with the
identifier of one that is being executed. -/
def mayStart [DecidableEq γ] (s : ServerController γ) (client : γ) (identifier : String) : Bool :=
  s.requests.all fun r => r.ended || r.client != client || r.identifier != identifier

def step [DecidableEq γ] (s : ServerController γ) : Event γ → Option (ServerController γ)
  | .start client identifier params =>
    if s.mayStart client identifier then
      some { s with requests := s.requests ++ [{ client, identifier, rest := params }] }
    else none
  | .iterate i => do
    let r ← s.running i
    match r.rest with
    | [] => none
    | pos :: rest => s.iterate i r pos rest
  | .insert i => do
    let r ← s.requests[i]?
    let stat ← r.pending
    return { s.update i { r with pending := none, posted := some stat } with
      actualStatus := insertStat r.identifier stat s.actualStatus
      globalMutex := none
      author := fun key => if key = r.identifier then some i else s.author key }
  | .finish i => do
    let r ← s.running i
    if r.rest = [] ∧ r.state.numStack ≠ [] then some (s.update i { r with ended := true }) else none

/-! ## What a step does -/

/-- Request `i` goes on as `r'`, outside `postStat`. -/
structure Quiet (s s' : ServerController γ) (i : Nat) (r r' : Request γ) : Prop where
  get : s.requests[i]? = some r
  running : r.ended = false
  identifier : r'.identifier = r.identifier
  posted : r'.posted = r.posted
  pending : r'.pending = none
  state : s' = s.update i r'

theorem running_some {s : ServerController γ} {i : Nat} {r : Request γ} (h : s.running i = some r) :
    s.requests[i]? = some r ∧ r.ended = false ∧ r.pending = none := by
  unfold running at h
  rw [Option.filter_eq_some_iff] at h
  simpa using h

theorem get_update {s : ServerController γ} {i : Nat} {r r' : Request γ} (h : s.requests[i]? = some r)
    (j : Nat) : (s.update i r').requests[j]? = if j = i then some r' else s.requests[j]? := by
  obtain ⟨hi, -⟩ := List.getElem?_eq_some_iff.mp h
  unfold update
  rw [List.getElem?_set]
  by_cases hj : i = j
  · rw [if_pos hj, if_pos hi, if_pos hj.symm]
  · rw [if_neg hj, if_neg (Ne.symm hj)]

theorem start_cases [DecidableEq γ] {s s' : ServerController γ} {client : γ} {identifier : String}
    {params : List String} (h : step s (.start client identifier params) = some s') :
    s' = { s with requests := s.requests ++ [{ client, identifier, rest := params }] } := by
  simp only [step] at h
  split at h
  · exact (Option.some.inj h).symm
  · cases h

theorem iterate_cases [DecidableEq γ] {s s' : ServerController γ} {i : Nat}
    (h : step s (.iterate i) = some s') :
    (∃ r r', Quiet s s' i r r') ∨ ∃ r rest pos state stat, s.requests[i]? = some r ∧ r.ended = false ∧
      ServerMethodCompute.step r.state pos = .ok (state, some stat) ∧
      s' = { s.update i { r with rest, state, pending := some stat } with
        actualStatus := eraseStat r.identifier s.actualStatus, globalMutex := some i } := by
  simp only [step, Option.bind_eq_bind, Option.bind_eq_some_iff] at h
  obtain ⟨r, hr, h⟩ := h
  obtain ⟨hget, hended, hpending⟩ := running_some hr
  rcases hrest : r.rest with _ | ⟨pos, rest⟩
  · rw [hrest] at h
    cases h
  · rw [hrest] at h
    simp only [iterate] at h
    split at h
    · exact Or.inl ⟨r, { r with ended := true }, hget, hended, rfl, rfl, hpending,
        (Option.some.inj h).symm⟩
    · cases h
    · rename_i state hstep
      exact Or.inl ⟨r, { r with rest, state }, hget, hended, rfl, rfl, hpending,
        (Option.some.inj h).symm⟩
    · rename_i state stat hstep
      split at h
      · exact Or.inr ⟨r, rest, pos, state, stat, hget, hended, hstep, (Option.some.inj h).symm⟩
      · cases h

theorem insert_cases [DecidableEq γ] {s s' : ServerController γ} {i : Nat}
    (h : step s (.insert i) = some s') :
    ∃ r stat, s.requests[i]? = some r ∧ r.pending = some stat ∧
      s' = { s.update i { r with pending := none, posted := some stat } with
        actualStatus := insertStat r.identifier stat s.actualStatus
        globalMutex := none
        author := fun key => if key = r.identifier then some i else s.author key } := by
  simp only [step, Option.bind_eq_bind, Option.bind_eq_some_iff] at h
  obtain ⟨r, hr, stat, hstat, h⟩ := h
  exact ⟨r, stat, hr, hstat, (Option.some.inj h).symm⟩

theorem finish_cases [DecidableEq γ] {s s' : ServerController γ} {i : Nat}
    (h : step s (.finish i) = some s') : ∃ r r', Quiet s s' i r r' := by
  simp only [step, Option.bind_eq_bind, Option.bind_eq_some_iff] at h
  obtain ⟨r, hr, h⟩ := h
  obtain ⟨hget, hended, hpending⟩ := running_some hr
  split at h
  · exact ⟨r, { r with ended := true }, hget, hended, rfl, rfl, hpending, (Option.some.inj h).symm⟩
  · cases h

theorem running_update {s : ServerController γ} {i : Nat} {r r' : Request γ}
    (hr : s.requests[i]? = some r) (hended : r'.ended = false) (hpending : r'.pending = none) :
    (s.update i r').running i = some r' := by
  unfold running
  rw [get_update hr, if_pos rfl]
  simp [hended, hpending]

/-- With no other request in between, the events of one request are the loop of `execute`. -/
theorem loop_reaches [DecidableEq γ] {s : ServerController γ} {i : Nat} {r : Request γ}
    (hr : s.running i = some r) (hmutex : s.globalMutex = none) (k : Nat)
    {st : ServerMethodCompute.State} {table : StatusTable}
    (hloop : ServerMethodCompute.loop r.identifier k r.state s.actualStatus r.rest = (.ok st, table)) :
    ∃ s' r', Reaches step (fun _ _ => True) s s' ∧ s'.actualStatus = table ∧
      s'.running i = some r' ∧ r'.rest = [] ∧ r'.state = st := by
  obtain ⟨hget, hended, hpending⟩ := running_some hr
  induction hrest : r.rest generalizing s r k with
  | nil =>
    rw [hrest] at hloop
    obtain ⟨hst, htable⟩ := Prod.mk.inj hloop
    exact ⟨s, r, Reaches.refl s, htable, hr, hrest, Except.ok.inj hst⟩
  | cons pos rest ih =>
    rw [hrest, ServerMethodCompute.loop] at hloop
    split at hloop
    · cases hloop
    · rename_i state hstep
      have hnext : step s (.iterate i) = some (s.update i { r with rest, state }) := by
        simp only [step, iterate, hr, hrest, hstep, Option.bind_eq_bind, Option.bind_some]
      have hr1 : (s.update i { r with rest, state }).running i = some { r with rest, state } :=
        running_update hget hended hpending
      obtain ⟨s', r', hrun, hend⟩ := ih hr1 hmutex (k + 1) hloop (running_some hr1).1 hended hpending rfl
      exact ⟨s', r', ((Reaches.refl s).tail trivial hnext).trans hrun, hend⟩
    · rename_i state stat hstep
      let r1 : Request γ := { r with rest, state, pending := some stat }
      let s1 : ServerController γ := { s.update i r1 with
        actualStatus := eraseStat r.identifier s.actualStatus, globalMutex := some i }
      let r2 : Request γ := { r1 with pending := none, posted := some stat }
      let s2 : ServerController γ := { s1.update i r2 with
        actualStatus := insertStat r.identifier stat s1.actualStatus
        globalMutex := none
        author := fun key => if key = r.identifier then some i else s1.author key }
      have hget1 : s1.requests[i]? = some r1 := (get_update hget i).trans (if_pos rfl)
      have herase : step s (.iterate i) = some s1 := by
        simp only [step, iterate, hr, hrest, hstep, Option.bind_eq_bind, Option.bind_some]
        exact if_pos hmutex
      have hinsert : step s1 (.insert i) = some s2 := by
        simp only [step, hget1, Option.bind_eq_bind, Option.bind_some]
        rfl
      have hr2 : s2.running i = some r2 := running_update hget1 hended rfl
      rw [postStat_eq] at hloop
      obtain ⟨s', r', hrun, hend⟩ := ih hr2 rfl (k + 1) hloop (running_some hr2).1 hended rfl rfl
      exact ⟨s', r', (((Reaches.refl s).tail trivial herase).tail trivial hinsert).trans hrun, hend⟩

/-! ## Whose operation a status is -/

/-- What a status request for request `i` is answered while that is executed: that there is no
state, or the last operation that request `i` itself has posted. -/
def StatusOwn (s : ServerController γ) : Prop :=
  ∀ i r, s.requests[i]? = some r → r.ended = false →
    ServerMethodStatus.execute r.identifier s.actualStatus = "Serwer:: Brak stanu wykonania" ∨
      s.author r.identifier = some i ∧
        r.posted = some (ServerMethodStatus.execute r.identifier s.actualStatus)

/-- A request starts with an identifier that has no entry in the table, and posts while no other
request with its identifier is being executed. -/
def Fresh (s : ServerController γ) : Event γ → Prop
  | .start _ identifier _ => s.actualStatus identifier = none
  | .insert i => ∀ r ∈ s.requests[i]?, ∀ j < s.requests.length, ∀ q ∈ s.requests[j]?, j ≠ i →
      q.ended = false → q.identifier ≠ r.identifier
  | _ => True

instance (s : ServerController γ) : (e : Event γ) → Decidable (Fresh s e)
  | .start _ identifier _ => inferInstanceAs (Decidable (s.actualStatus identifier = none))
  | .insert i => inferInstanceAs (Decidable (∀ r ∈ s.requests[i]?, ∀ j < s.requests.length,
      ∀ q ∈ s.requests[j]?, j ≠ i → q.ended = false → q.identifier ≠ r.identifier))
  | .iterate _ => isTrue trivial
  | .finish _ => isTrue trivial

theorem operation_ne (pos : String) (arg1 arg2 res : Int) :
    ServerMethodCompute.operation pos arg1 arg2 res ≠ "Serwer:: Brak stanu wykonania" := by
  intro heq
  have htext : "Server:: " ++ pos ++ " arg: " ++ toString arg1 ++ " " ++ toString arg2 ++ " -> " ++
      toString res = "Serwer:: Brak stanu wykonania" := heq
  have hchars := congrArg (fun text => text.toList[3]?) htext
  simp only [String.toList_append, List.append_assoc] at hchars
  rw [List.getElem?_append_left (by decide)] at hchars
  revert hchars
  decide

theorem step_text {st st' : ServerMethodCompute.State} {pos stat : String}
    (h : ServerMethodCompute.step st pos = .ok (st', some stat)) :
    stat ≠ "Serwer:: Brak stanu wykonania" := by
  unfold ServerMethodCompute.step at h
  split at h
  · obtain ⟨num, -, h⟩ := Except.bind_eq_ok.mp h
    cases h
  · obtain ⟨⟨arg1, numStack⟩, -, h⟩ := Except.bind_eq_ok.mp h
    obtain ⟨⟨arg2, numStack⟩, -, h⟩ := Except.bind_eq_ok.mp h
    obtain ⟨res, -, h⟩ := Except.bind_eq_ok.mp h
    split at h
    · cases h
    · obtain rfl := Option.some.inj (Prod.mk.inj (Except.ok.inj h)).2
      exact operation_ne _ _ _ _

structure TableInv (s : ServerController γ) : Prop where
  texts : ∀ key, s.actualStatus key ≠ some "Serwer:: Brak stanu wykonania"
  own : ∀ (i : Nat) (r : Request γ), s.requests[i]? = some r → r.ended = false →
    s.actualStatus r.identifier = none ∨
      s.author r.identifier = some i ∧ s.actualStatus r.identifier = r.posted
  pending : ∀ (i : Nat) (r : Request γ) (stat : String), s.requests[i]? = some r →
    r.pending = some stat → r.ended = false ∧ s.actualStatus r.identifier = none ∧
      stat ≠ "Serwer:: Brak stanu wykonania"

theorem TableInv.statusOwn {s : ServerController γ} (h : TableInv s) : StatusOwn s := by
  intro i r hr hended
  unfold ServerMethodStatus.execute
  rcases h.own i r hr hended with hnone | ⟨hauthor, hposted⟩
  · exact Or.inl (by rw [hnone])
  · rcases htable : s.actualStatus r.identifier with _ | stat
    · exact Or.inl rfl
    · exact Or.inr ⟨hauthor, by rw [← hposted, htable]⟩

theorem get_start {s : ServerController γ} {new r : Request γ} {i : Nat}
    (h : (s.requests ++ [new])[i]? = some r) :
    s.requests[i]? = some r ∨ i = s.requests.length ∧ r = new := by
  rcases Nat.lt_or_ge i s.requests.length with hi | hi
  · exact Or.inl (by rwa [List.getElem?_append_left hi] at h)
  · rw [List.getElem?_append_right hi, List.getElem?_singleton] at h
    split at h
    · exact Or.inr ⟨by omega, (Option.some.inj h).symm⟩
    · cases h

theorem TableInv.start {s : ServerController γ} (h : TableInv s) {new : Request γ}
    (hnew : s.actualStatus new.identifier = none) (hpending : new.pending = none) :
    TableInv { s with requests := s.requests ++ [new] } where
  texts := h.texts
  own i r hr hended := by
    rcases get_start hr with hr | ⟨-, rfl⟩
    · exact h.own i r hr hended
    · exact Or.inl hnew
  pending i r stat hr hstat := by
    rcases get_start hr with hr | ⟨-, rfl⟩
    · exact h.pending i r stat hr hstat
    · rw [hpending] at hstat
      cases hstat

theorem TableInv.quiet {s s' : ServerController γ} (h : TableInv s) {i : Nat} {r r' : Request γ}
    (hq : Quiet s s' i r r') : TableInv s' := by
  obtain rfl := hq.state
  refine ⟨h.texts, fun j q hj hended => ?_, fun j q stat hj hstat => ?_⟩
  · rw [get_update hq.get] at hj
    split at hj
    · rename_i hji
      obtain rfl := Option.some.inj hj
      rw [hq.identifier, hq.posted, hji]
      exact h.own i r hq.get hq.running
    · exact h.own j q hj hended
  · rw [get_update hq.get] at hj
    split at hj
    · obtain rfl := Option.some.inj hj
      rw [hq.pending] at hstat
      cases hstat
    · exact h.pending j q stat hj hstat

theorem TableInv.erase {s : ServerController γ} (h : TableInv s) {i : Nat} {r : Request γ}
    (hr : s.requests[i]? = some r) (hended : r.ended = false) {pos stat : String}
    {rest : List String} {state : ServerMethodCompute.State}
    (hstep : ServerMethodCompute.step r.state pos = .ok (state, some stat)) :
    TableInv { s.update i { r with rest, state, pending := some stat } with
      actualStatus := eraseStat r.identifier s.actualStatus, globalMutex := some i } := by
  have hkeep : ∀ key, s.actualStatus key = none → eraseStat r.identifier s.actualStatus key = none := by
    intro key hkey
    unfold eraseStat
    rw [hkey, ite_self]
  have hself : eraseStat r.identifier s.actualStatus r.identifier = none := if_pos rfl
  refine ⟨fun key => ?_, fun j q hj hq => ?_, fun j q stat' hj hstat => ?_⟩
  · simp only [eraseStat]
    split
    · simp
    · exact h.texts key
  · replace hj := (get_update hr j).symm.trans hj
    split at hj
    · obtain rfl := Option.some.inj hj
      exact Or.inl hself
    · by_cases hkey : q.identifier = r.identifier
      · exact Or.inl (by rw [hkey]; exact hself)
      · rcases h.own j q hj hq with hnone | hown
        · exact Or.inl (hkeep _ hnone)
        · refine Or.inr ?_
          simp only [eraseStat, if_neg hkey]
          exact hown
  · replace hj := (get_update hr j).symm.trans hj
    split at hj
    · obtain rfl := Option.some.inj hj
      obtain rfl := Option.some.inj hstat
      exact ⟨hended, hself, step_text hstep⟩
    · obtain ⟨hq, hnone, htext⟩ := h.pending j q stat' hj hstat
      exact ⟨hq, hkeep _ hnone, htext⟩

theorem TableInv.insert {s : ServerController γ} (h : TableInv s) {i : Nat} {r : Request γ}
    {stat : String} (hr : s.requests[i]? = some r) (hstat : r.pending = some stat)
    (hfresh : ∀ j q, s.requests[j]? = some q → j ≠ i → q.ended = false →
      q.identifier ≠ r.identifier) :
    TableInv { s.update i { r with pending := none, posted := some stat } with
      actualStatus := insertStat r.identifier stat s.actualStatus
      globalMutex := none
      author := fun key => if key = r.identifier then some i else s.author key } := by
  obtain ⟨hended, hnone, htext⟩ := h.pending i r stat hr hstat
  have hself : insertStat r.identifier stat s.actualStatus r.identifier = some stat := by
    simp only [insertStat, hnone]
    rfl
  refine ⟨fun key => ?_, fun j q hj hq => ?_, fun j q stat' hj hstat' => ?_⟩
  · by_cases hkey : key = r.identifier
    · rw [hkey]
      exact fun heq => htext (Option.some.inj (hself.symm.trans heq))
    · simp only [insertStat, if_neg hkey]
      exact h.texts key
  · replace hj := (get_update hr j).symm.trans hj
    split at hj
    · rename_i hji
      obtain rfl := Option.some.inj hj
      exact Or.inr ⟨by rw [hji]; exact if_pos rfl, hself⟩
    · rename_i hji
      have hkey := hfresh j q hj hji hq
      simp only [insertStat, if_neg hkey]
      exact h.own j q hj hq
  · replace hj := (get_update hr j).symm.trans hj
    split at hj
    · obtain rfl := Option.some.inj hj
      cases hstat'
    · rename_i hji
      obtain ⟨hq, hqnone, hqtext⟩ := h.pending j q stat' hj hstat'
      have hkey := hfresh j q hj hji hq
      simp only [insertStat, if_neg hkey]
      exact ⟨hq, hqnone, hqtext⟩

theorem tableInv_step [DecidableEq γ] {s s' : ServerController γ} {e : Event γ} (h : TableInv s) (hfresh : Fresh s e)
    (hstep : step s e = some s') : TableInv s' := by
  cases e with
  | start client identifier params =>
    obtain rfl := start_cases hstep
    exact h.start hfresh rfl
  | iterate i =>
    rcases iterate_cases hstep with ⟨r, r', hq⟩ | ⟨r, rest, pos, state, stat, hr, hended, hpos, rfl⟩
    · exact h.quiet hq
    · exact h.erase hr hended hpos
  | insert i =>
    obtain ⟨r, stat, hr, hstat, rfl⟩ := insert_cases hstep
    exact h.insert hr hstat fun j q hj =>
      hfresh r hr j (List.getElem?_eq_some_iff.mp hj).1 q hj
  | finish i =>
    obtain ⟨r, r', hq⟩ := finish_cases hstep
    exact h.quiet hq

theorem fresh_of_statusOwn [DecidableEq γ] {s s' : ServerController γ} {e : Event γ} (h : TableInv s)
    (hstep : step s e = some s') (hown : StatusOwn s') : Fresh s e := by
  cases e with
  | start client identifier params =>
    obtain rfl := start_cases hstep
    have hnew := hown s.requests.length { client, identifier, rest := params } (by simp) rfl
    simp only [reduceCtorEq, and_false, or_false] at hnew
    unfold ServerMethodStatus.execute at hnew
    rcases htable : s.actualStatus identifier with _ | stat
    · exact htable
    · rw [htable] at hnew
      exact absurd (htable.trans (congrArg some hnew)) (h.texts identifier)
  | insert i =>
    obtain ⟨r, stat, hr, hstat, rfl⟩ := insert_cases hstep
    obtain ⟨-, hnone, htext⟩ := h.pending i r stat hr hstat
    intro r' hr' j _ q hj hji hq hkey
    obtain rfl := Option.some.inj (hr.symm.trans hr')
    rw [Option.mem_def] at hj
    have hother := hown j q (by rw [← hj]; exact (get_update hr j).trans (if_neg hji)) hq
    simp only [ServerMethodStatus.execute, insertStat, hkey, hnone, if_true, Option.getD_none] at hother
    rcases hother with hother | ⟨hauthor, -⟩
    · exact htext hother
    · exact hji (Option.some.inj hauthor).symm
  | iterate i => trivial
  | finish i => trivial

/-- **A status is one's own** in every state of a run whose steps are all fresh, and the first
step that is not fresh ends this. -/
theorem status_own [DecidableEq γ] {s : ServerController γ} (h : Reaches step Fresh {} s) :
    StatusOwn s ∧ ∀ e s', step s e = some s' → (StatusOwn s' ↔ Fresh s e) := by
  have hinv : TableInv s := h.invariant ⟨by simp, by simp, by simp⟩ fun _ _ _ hi hok he => tableInv_step hi hok he
  exact ⟨hinv.statusOwn, fun e s' hstep =>
    ⟨fun hown => fresh_of_statusOwn hinv hstep hown, fun hfresh => (tableInv_step hinv hfresh hstep).statusOwn⟩⟩

theorem status_own_of_two :
    ∃ s : ServerController Nat, StatusOwn s ∧ ∀ i, i = 0 ∨ i = 1 →
      ∃ r, s.requests[i]? = some r ∧ r.ended = false ∧ s.author r.identifier = some i := by
  obtain ⟨s, hplay, hauthor⟩ : ∃ s : ServerController Nat,
      play step (fun s e => decide (Fresh s e)) {} [.start 1 "7f01" ["1", "2", "ADD"],
        .start 2 "7f02" ["3", "4", "MULTIPLY"], .iterate 0, .iterate 1, .iterate 0, .iterate 1, .iterate 1,
        .insert 1, .iterate 0, .insert 0] = some s ∧
      ∀ i, i = 0 ∨ i = 1 → ∃ r, s.requests[i]? = some r ∧ r.ended = false ∧ s.author r.identifier = some i := by
    refine ⟨_, rfl, ?_⟩
    rintro i (rfl | rfl) <;> exact ⟨_, rfl, rfl, rfl⟩
  exact ⟨s, (status_own ((reaches_of_play hplay).weaken fun _ _ => of_decide_eq_true)).1, hauthor⟩

/-- A client reads the operation of another, which chose the same identifier and has ended. -/
theorem status_of_other :
    ¬ ∀ s : ServerController Nat, Reaches step (fun _ _ => True) {} s → StatusOwn s := by
  intro h
  obtain ⟨s, hplay, r, hr, hended, hposted, hstatus⟩ : ∃ s : ServerController Nat,
      play step (fun _ _ => true) {} [.start 1 "7f01" ["1", "2", "ADD"], .iterate 0, .iterate 0,
        .iterate 0, .insert 0, .finish 0, .start 2 "7f01" ["3", "4", "ADD"]] = some s ∧
      ∃ r, s.requests[1]? = some r ∧ r.ended = false ∧ r.posted = none ∧
        ServerMethodStatus.execute r.identifier s.actualStatus = "Server:: ADD arg: 2 1 -> 3" :=
    ⟨_, rfl, _, rfl, rfl, rfl, by decide⟩
  rcases h s ((reaches_of_play hplay).weaken fun _ _ _ => trivial) 1 r hr hended with hnone | ⟨-, hown⟩
  · rw [hstatus] at hnone
    revert hnone
    decide
  · rw [hposted] at hown
    cases hown

end ServerController

end DispCalc
