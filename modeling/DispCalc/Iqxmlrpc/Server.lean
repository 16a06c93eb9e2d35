import DispCalc.Iqxmlrpc.PoolExecutor
import DispCalc.Iqxmlrpc.ServerConnection

/-!
# `Server`

One thread polls the connections and calls their handlers; the threads of the pool execute the
methods and schedule the responses. Any number of clients is connected.
-/

open Runs

namespace DispCalc.Iqxmlrpc

/-- `Pool_executor`: a method that is called on a connection. -/
structure PoolExecutor (M : Type) where
  conn : Nat
  method : M

/-- The connections in the order in which they are accepted; a deleted one is `none`. -/
structure Server (M : Type) where
  conns : List (Option ServerConnection) := []
  reactor : Reactor := {}
  /-- The results of `poll` that have not been handled. -/
  ready : List (Nat × Nat) := []
  pool : PoolExecutorFactory (PoolExecutor M) := {}

namespace Server

open ServerConnection PoolExecutorFactory

variable {M : Type}

def conn? (s : Server M) (fd : Nat) : Option ServerConnection := s.conns[fd]?.join

def setConn (s : Server M) (fd : Nat) (conn : Option ServerConnection) : Server M :=
  { s with conns := s.conns.set fd conn }

/-- What a handler has left to the server. -/
def after (s : Server M) (fd : Nat) (notified : Option Nat) : Handled M × ServerConnection → Option (Server M)
  | (.again, conn) => some (s.setConn fd (some conn))
  | (.execute m, conn) => do
    let pool ← s.pool.step (.registerExecutor ⟨fd, m⟩ notified)
    return { s.setConn fd (some conn) with reactor := s.reactor.unregisterHandler fd INPUT, pool }
  | (.respond unregistered, conn) =>
    let reactor := if unregistered then s.reactor.unregisterHandler fd INPUT else s.reactor
    some { s.setConn fd (some conn) with reactor := reactor.registerHandler fd OUTPUT }
  | (.next, conn) =>
    let reactor := s.reactor.unregisterHandler fd OUTPUT
    some { s.setConn fd (some conn) with reactor := reactor.registerHandler fd INPUT }
  | (.terminate, _) => some { s.setConn fd none with reactor := s.reactor.unregister fd }

inductive Event where
  | accept
  | poll (revents : Nat → Option Nat)
  /-- The first result of `poll` is handled. An executor that is registered may wake a thread. -/
  | dispatch (io : Io) (date : String) (notified : Option Nat)
  | addThreads (num : Nat)
  | lock (t : Nat)
  | wake (t : Nat)
  | resume (t : Nat)
  /-- The method of thread `t` has returned, or thrown: `content` is the document of the response. -/
  | finish (t : Nat) (content : List Char) (date : String)

/-- The executor of a thread of the pool. -/
def executor? (s : Server M) (t : Nat) : Option (PoolExecutor M) := s.pool.threads[t]?.bind executing

def poolStep (s : Server M) (e : PoolExecutorFactory.Event (PoolExecutor M)) : Option (Server M) :=
  (s.pool.step e).map fun pool => { s with pool }

def step (cfg : ServerConfig M) (s : Server M) : Event → Option (Server M)
  | .accept => some { s with
      conns := s.conns ++ [some {}], reactor := s.reactor.registerHandler s.conns.length INPUT }
  | .poll revents =>
    if s.ready = [] then
      some { s with ready := s.reactor.handlersStates.filterMap fun (fd, mask) =>
        (revents fd).map fun r => (fd, r &&& mask) }
    else none
  | .dispatch io date notified =>
    match s.ready with
    | [] => none
    | (fd, revents) :: ready => do
      -- `assert(handler)`
      let _ ← s.reactor.mask? fd
      let conn ← s.conn? fd
      let s := { s with ready }
      s.after fd notified (← conn.invoke cfg revents io date)
  | .addThreads num => s.poolStep (.addThreads num)
  | .lock t => s.poolStep (.lock t)
  | .wake t => s.poolStep (.wake t)
  | .resume t => s.poolStep (.resume t)
  | .finish t content date => do
    let executor ← s.executor? t
    let conn ← s.conn? executor.conn
    let s ← s.poolStep (.finish t)
    return { s.setConn executor.conn (some (conn.answer cfg content date)) with
      reactor := s.reactor.registerHandler executor.conn OUTPUT }

/-! ## What each connection sees -/

/-- The executors of a connection. -/
def executors (s : Server M) (fd : Nat) : List (PoolExecutor M) := s.pool.held.filter fun x => x.conn = fd

inductive Shows (s : Server M) (fd : Nat) : Session M → Prop where
  | registered {mask : Nat} {conn : ServerConnection} (hconn : s.conn? fd = some conn)
    (hmask : s.reactor.mask? fd = some mask) : Shows s fd (.registered mask conn)
  | executing {m : M} {conn : ServerConnection} (hconn : s.conn? fd = some conn)
    (hmem : ⟨fd, m⟩ ∈ s.executors fd) : Shows s fd (.executing m conn)
  | closed (hlt : fd < s.conns.length) (hconn : s.conn? fd = none) : Shows s fd .closed

/-- A connection is registered or has an executor, one of both and once, until it is deleted. -/
def Owned (s : Server M) (fd : Nat) : Prop :=
  (s.reactor.mask? fd).isSome.toNat + (s.executors fd).length = (s.conn? fd).isSome.toNat

/-- Nothing has happened to a connection. -/
structure Same (s s' : Server M) (fd : Nat) : Prop where
  conn : s'.conn? fd = s.conn? fd
  mask : s'.reactor.mask? fd = s.reactor.mask? fd
  executors : (s'.executors fd).Perm (s.executors fd)
  length : s.conns.length ≤ s'.conns.length

/-- The results of `poll` are for events that the connections are still registered for. -/
structure Sound (s : Server M) : Prop where
  owned : ∀ fd, Owned s fd
  once : (s.ready.map Prod.fst).Nodup
  registered : ∀ r ∈ s.ready, ∃ mask, s.reactor.mask? r.1 = some mask ∧ r.2 &&& mask = r.2

variable {cfg : ServerConfig M} {s s' : Server M} {fd : Nat}

theorem Same.owned (h : Same s s' fd) (hs : Owned s fd) : Owned s' fd := by
  unfold Owned at *
  rw [h.conn, h.mask, h.executors.length_eq, hs]

theorem Same.shows {x : Session M} (h : Same s s' fd) (hx : Shows s fd x) : Shows s' fd x := by
  cases hx with
  | registered hconn hmask => exact .registered (h.conn.trans hconn) (h.mask.trans hmask)
  | executing hconn hmem => exact .executing (h.conn.trans hconn) (h.executors.mem_iff.mpr hmem)
  | closed hlt hconn => exact .closed (hlt.trans_le h.length) (h.conn.trans hconn)

theorem lt_of_conn? {conn : ServerConnection} (h : s.conn? fd = some conn) : fd < s.conns.length := by
  by_contra hge
  rw [conn?, List.getElem?_eq_none (not_lt.mp hge)] at h
  cases h

theorem conn?_set {conn : Option ServerConnection} (hlt : fd < s.conns.length)
    (h : s'.conns = s.conns.set fd conn) (fd' : Nat) : s'.conn? fd' = if fd' = fd then conn else s.conn? fd' := by
  unfold conn?
  rw [h]
  by_cases hfd : fd' = fd
  · subst hfd
    simp [hlt]
  · rw [List.getElem?_set_ne (Ne.symm hfd), if_neg hfd]

theorem perm_register {p : PoolExecutorFactory (PoolExecutor M)} {x : PoolExecutor M} {notified : Option Nat}
    (h : s.pool.step (.registerExecutor x notified) = some p) (hpool : s'.pool = p) (fd : Nat) :
    (s'.executors fd).Perm ((if x.conn = fd then [x] else []) ++ s.executors fd) := by
  have hperm := (held_step (step_of h)).symm.filter fun x => decide (x.conn = fd)
  rw [← hpool] at hperm
  by_cases hx : x.conn = fd <;> simpa [executors, registers, finishes, hx] using hperm

theorem perm_finish {p : PoolExecutorFactory (PoolExecutor M)} {t : Nat} {x : PoolExecutor M}
    (h : s.pool.step (.finish t) = some p) (hx : s.executor? t = some x) (hpool : s'.pool = p) (fd : Nat) :
    (s.executors fd).Perm ((if x.conn = fd then [x] else []) ++ s'.executors fd) := by
  have hperm := (held_step (step_of h)).filter fun x => decide (x.conn = fd)
  rw [executor?] at hx
  rw [← hpool] at hperm
  by_cases hconn : x.conn = fd <;> simpa [executors, registers, finishes, hx, hconn] using hperm

theorem Owned.idle (h : Owned s fd) {mask : Nat} (hmask : s.reactor.mask? fd = some mask) :
    s.executors fd = [] := by
  have hle : (s.conn? fd).isSome.toNat ≤ 1 := Bool.toNat_le _
  rw [Owned, hmask, Option.isSome_some, Bool.toNat_true] at h
  exact List.eq_nil_of_length_eq_zero (by omega)

theorem Owned.busy (h : Owned s fd) {x : PoolExecutor M} (hx : x ∈ s.executors fd) :
    s.reactor.mask? fd = none ∧ s.executors fd = [x] := by
  have hle : (s.conn? fd).isSome.toNat ≤ 1 := Bool.toNat_le _
  have hpos := List.length_pos_of_mem hx
  unfold Owned at h
  have hmask : (s.reactor.mask? fd).isSome.toNat = 0 := by omega
  obtain ⟨y, hy⟩ := List.length_eq_one_iff.mp (show (s.executors fd).length = 1 by omega)
  rw [hy, List.mem_singleton] at hx
  exact ⟨by simpa using hmask, by rw [hy, hx]⟩

/-- The handlers of one connection, on the server. -/
structure Handles (s s' : Server M) (fd : Nat) (x : Session M) : Prop where
  shows : Shows s' fd x
  owned : Owned s' fd
  ready : s'.ready = s.ready
  length : s'.conns.length = s.conns.length
  same : ∀ fd' ≠ fd, Same s s' fd'

theorem handles_registered {conn : ServerConnection} {mask : Nat} (hidle : s.executors fd = [])
    (hlt : fd < s.conns.length) (hconns : s'.conns = s.conns.set fd (some conn)) (hpool : s'.pool = s.pool)
    (hready : s'.ready = s.ready) (hmask : s'.reactor.mask? fd = some mask)
    (hsame : ∀ fd' ≠ fd, s'.reactor.mask? fd' = s.reactor.mask? fd') :
    Handles s s' fd (.registered mask conn) := by
  have hconn := (conn?_set hlt hconns fd).trans (if_pos rfl)
  have hexecutors : ∀ fd', s'.executors fd' = s.executors fd' := by
    intro fd'
    rw [executors, hpool, ← executors]
  refine ⟨.registered hconn hmask, ?_, hready, by simp [hconns], fun fd' hne => ⟨?_, hsame fd' hne, ?_, ?_⟩⟩
  · simp [Owned, hconn, hmask, hexecutors, hidle]
  · exact (conn?_set hlt hconns fd').trans (if_neg hne)
  · rw [hexecutors]
  · simp [hconns]

theorem after_handles {h : Handled M × ServerConnection} {conn : ServerConnection} {mask : Nat}
    {notified : Option Nat} (hown : Owned s fd) (hconn : s.conn? fd = some conn)
    (hmask : s.reactor.mask? fd = some mask) (hs : s.after fd notified h = some s') :
    Handles s s' fd (Session.handled mask h) := by
  have hlt := lt_of_conn? hconn
  have hidle := hown.idle hmask
  have hin : INPUT ≠ 0 := nofun
  have hout : OUTPUT ≠ 0 := nofun
  obtain ⟨h, conn'⟩ := h
  cases h with
  | again =>
    obtain rfl := Option.some.inj hs
    exact handles_registered hidle hlt rfl rfl rfl hmask fun _ _ => rfl
  | execute m =>
    obtain ⟨pool, hpool, hs⟩ := Option.bind_eq_some_iff.mp hs
    have hs := (Option.some.inj hs).symm
    have hset := conn?_set hlt (congrArg Server.conns hs)
    have hready := congrArg Server.ready hs
    have hreactor : s'.reactor = s.reactor.unregisterHandler fd INPUT := congrArg Server.reactor hs
    have hexecutors := perm_register hpool (congrArg Server.pool hs)
    have hself : (s'.executors fd).Perm [⟨fd, m⟩] := by simpa [hidle] using hexecutors fd
    refine ⟨.executing (hset fd |>.trans (if_pos rfl)) (hself.mem_iff.mpr List.mem_cons_self), ?_,
      hready, by simp [hs, setConn], fun fd' hne => ⟨(hset fd').trans (if_neg hne), ?_, ?_, ?_⟩⟩
    · simp [Owned, hset, hreactor, Reactor.mask?_unregisterHandler _ _ _ hin, hself.length_eq]
    · rw [hreactor, Reactor.mask?_unregisterHandler _ _ _ hin, if_neg hne]
    · simpa [Ne.symm hne] using hexecutors fd'
    · simp [hs, setConn]
  | respond unregistered =>
    obtain rfl := Option.some.inj hs
    cases unregistered with
    | true =>
      refine handles_registered hidle hlt rfl rfl rfl ?_ fun fd' hne => ?_
      · simp [Reactor.mask?_register, Reactor.mask?_unregisterHandler _ _ _ hin]
      · simp [Reactor.mask?_register, Reactor.mask?_unregisterHandler _ _ _ hin, hne]
    | false =>
      refine handles_registered hidle hlt rfl rfl rfl ?_ fun fd' hne => ?_
      · simp [Reactor.mask?_register, hmask]
      · simp [Reactor.mask?_register, hne]
  | next =>
    obtain rfl := Option.some.inj hs
    refine handles_registered hidle hlt rfl rfl rfl ?_ fun fd' hne => ?_
    · simp [Reactor.mask?_register, Reactor.mask?_unregisterHandler _ _ _ hout]
    · simp [Reactor.mask?_register, Reactor.mask?_unregisterHandler _ _ _ hout, hne]
  | terminate =>
    have hs := (Option.some.inj hs).symm
    have hset := conn?_set hlt (congrArg Server.conns hs)
    have hready := congrArg Server.ready hs
    have hreactor : s'.reactor = s.reactor.unregister fd := congrArg Server.reactor hs
    have hexecutors : ∀ fd', s'.executors fd' = s.executors fd' := by
      intro fd'
      rw [hs]
      rfl
    refine ⟨.closed (by simpa [hs, setConn] using hlt) (hset fd |>.trans (if_pos rfl)), ?_,
      hready, by simp [hs, setConn], fun fd' hne => ⟨(hset fd').trans (if_neg hne), ?_, ?_, ?_⟩⟩
    · simp [Owned, hset, hreactor, Reactor.mask?_unregister, hexecutors, hidle]
    · rw [hreactor, Reactor.mask?_unregister, if_neg hne]
    · rw [hexecutors]
    · simp [hs, setConn]

/-- The connection that an event of the server is about, and what it is there. -/
def Event.own (s : Server M) : Event → Option (Nat × Session.Event)
  | .dispatch io date _ =>
    match s.ready with
    | (fd, revents) :: _ =>
      if revents &&& INPUT ≠ 0 ∨ revents &&& OUTPUT ≠ 0 then some (fd, .io io date) else none
    | [] => none
  | .finish t content date => (s.executor? t).map fun x => (x.conn, .answer content date)
  | _ => none

/-- The event of a connection that an event of the server is. -/
def Event.at (s : Server M) (fd : Nat) (e : Event) : Option Session.Event :=
  (e.own s).bind fun (fd', e) => if fd' = fd then some e else none

/-- What an event of the server is to a connection: nothing, or the event of its own. -/
def Follows (cfg : ServerConfig M) (e : Option Session.Event) (x x' : Session M) : Prop :=
  match e with
  | none => x' = x
  | some e => Session.step cfg x e = some x'

theorem and_ne_zero {a b c : Nat} (h : a &&& b = a) (hc : a &&& c ≠ 0) : b &&& c ≠ 0 := by
  intro hzero
  rw [← h, Nat.and_assoc, hzero, Nat.and_zero] at hc
  exact hc rfl

theorem invoke_follows {conn : ServerConnection} {mask revents : Nat} {io : Io} {date : String}
    {h : Handled M × ServerConnection} (hmask : revents &&& mask = revents)
    (hi : conn.invoke cfg revents io date = some h) :
    Follows cfg (if revents &&& INPUT ≠ 0 ∨ revents &&& OUTPUT ≠ 0 then some (.io io date) else none)
      (.registered mask conn) (Session.handled mask h) := by
  unfold invoke at hi
  split at hi
  · rename_i hin
    rw [if_pos (Or.inl hin)]
    cases io with
    | recv bytes =>
      simp only at hi
      split at hi
      · rename_i hle
        obtain rfl := Option.some.inj hi
        exact if_pos ⟨and_ne_zero hmask hin, hle⟩
      · cases hi
    | send sz => cases hi
    | fail =>
      obtain rfl := Option.some.inj hi
      rfl
  · rename_i hin
    split at hi
    · rename_i hout
      rw [if_pos (Or.inr hout)]
      cases io with
      | recv bytes => cases hi
      | send sz =>
        simp only at hi
        split at hi
        · rename_i hle
          obtain rfl := Option.some.inj hi
          exact if_pos ⟨and_ne_zero hmask hout, hle⟩
        · cases hi
      | fail =>
        obtain rfl := Option.some.inj hi
        rfl
    · rename_i hout
      obtain rfl := Option.some.inj hi
      rw [if_neg (by simp [hin, hout])]
      rfl

theorem Sound.handles (hs : Sound s) {ready : List (Nat × Nat)} {x : Session M}
    (h : Handles { s with ready } s' fd x) (honce : (ready.map Prod.fst).Nodup)
    (hsub : ∀ r ∈ ready, r ∈ s.ready ∧ r.1 ≠ fd) : Sound s' where
  owned fd' := by
    by_cases hfd : fd' = fd
    · exact hfd ▸ h.owned
    · exact (h.same fd' hfd).owned (hs.owned fd')
  once := by
    rw [h.ready]
    exact honce
  registered r hr := by
    rw [h.ready] at hr
    obtain ⟨hmem, hne⟩ := hsub r hr
    rw [(h.same r.1 hne).mask]
    exact hs.registered r hmem

theorem Sound.same (hs : Sound s) (h : ∀ fd, Same s s' fd) (hready : s'.ready = s.ready) : Sound s' where
  owned fd := (h fd).owned (hs.owned fd)
  once := hready ▸ hs.once
  registered r hr := by
    rw [(h r.1).mask]
    exact hs.registered r (hready ▸ hr)

theorem Shows.lt {x : Session M} (h : Shows s fd x) : fd < s.conns.length := by
  cases h with
  | registered hconn _ => exact lt_of_conn? hconn
  | executing hconn _ => exact lt_of_conn? hconn
  | closed hlt _ => exact hlt

theorem Shows.eq_registered {x : Session M} (h : Shows s fd x) (hown : Owned s fd) {conn : ServerConnection}
    {mask : Nat} (hconn : s.conn? fd = some conn) (hmask : s.reactor.mask? fd = some mask) :
    x = .registered mask conn := by
  cases h with
  | registered hconn' hmask' =>
    obtain rfl := Option.some.inj (hconn.symm.trans hconn')
    obtain rfl := Option.some.inj (hmask.symm.trans hmask')
    rfl
  | executing hconn' hmem => exact absurd hmem (by simp [hown.idle hmask])
  | closed hlt hconn' => cases hconn.symm.trans hconn'

theorem Shows.eq_executing {x : Session M} (h : Shows s fd x) (hown : Owned s fd) {conn : ServerConnection}
    {m : M} (hconn : s.conn? fd = some conn) (hmem : ⟨fd, m⟩ ∈ s.executors fd) : x = .executing m conn := by
  obtain ⟨hnone, hone⟩ := hown.busy hmem
  cases h with
  | registered hconn' hmask => cases hnone.symm.trans hmask
  | executing hconn' hmem' =>
    obtain rfl := Option.some.inj (hconn.symm.trans hconn')
    rw [hone, List.mem_singleton] at hmem'
    obtain ⟨-, rfl⟩ := PoolExecutor.mk.inj hmem'
    rfl
  | closed hlt hconn' => cases hconn.symm.trans hconn'

theorem mem_executors {t : Nat} {x : PoolExecutor M} (h : s.executor? t = some x) : x ∈ s.executors x.conn := by
  obtain ⟨th, hget, hth⟩ := Option.bind_eq_some_iff.mp h
  have hexecuted : x ∈ s.pool.executed := List.mem_filterMap.mpr ⟨th, List.mem_of_getElem? hget, hth⟩
  exact List.mem_filter.mpr ⟨List.mem_append_right _ hexecuted, by simp⟩

/-- Every connection goes on as a session of its own would. -/
structure Simulates (cfg : ServerConfig M) (e : Event) (s s' : Server M) : Prop where
  sound : Sound s'
  follows : ∀ fd x, Shows s fd x → ∃ x', Shows s' fd x' ∧ Follows cfg (e.at s fd) x x'
  opened : ∀ fd, fd < s'.conns.length → fd < s.conns.length ∨ Shows s' fd (.registered INPUT {})
  length : e ≠ .accept → s'.conns.length = s.conns.length

theorem Simulates.quiet {e : Event} (h : ∀ fd, Same s s' fd) (hlength : s'.conns.length = s.conns.length)
    (hsound : Sound s') (he : ∀ fd, e.at s fd = none) : Simulates cfg e s s' where
  sound := hsound
  opened _ hlt := Or.inl (hlength ▸ hlt)
  length _ := hlength
  follows fd x hx := ⟨x, (h fd).shows hx, by rw [he]; rfl⟩

theorem Sound.accept (hs : Sound s) (h : Server.step cfg s .accept = some s') : Simulates cfg .accept s s' := by
  have h := (Option.some.inj h).symm
  have hnone : s.conn? s.conns.length = none := by simp [conn?]
  have hown := hs.owned s.conns.length
  rw [Owned, hnone, Option.isSome_none, Bool.toNat_false] at hown
  have hmask : s.reactor.mask? s.conns.length = none := by
    have hzero : (s.reactor.mask? s.conns.length).isSome.toNat = 0 := by omega
    simpa using hzero
  have hsame : ∀ fd ≠ s.conns.length, Same s s' fd := by
    intro fd hne
    refine ⟨?_, ?_, by rw [h]; exact .refl _, by simp [h]⟩
    · simp only [h, conn?]
      rcases Nat.lt_or_gt_of_ne hne with hlt | hgt
      · rw [List.getElem?_append_left hlt]
      · rw [List.getElem?_eq_none (by simp; omega), List.getElem?_eq_none (by omega)]
    · simp [h, Reactor.mask?_register, hne]
  have hself : s'.conn? s.conns.length = some {} := by simp [h, conn?]
  have hinput : s'.reactor.mask? s.conns.length = some INPUT := by simp [h, Reactor.mask?_register, hmask]
  refine ⟨⟨fun fd => ?_, ?_, ?_⟩, fun fd x hx => ⟨x, (hsame fd hx.lt.ne).shows hx, rfl⟩, fun fd hlt => ?_,
    fun hne => absurd rfl hne⟩
  · by_cases hfd : fd = s.conns.length
    · subst hfd
      have hempty : s.executors s.conns.length = [] := List.eq_nil_of_length_eq_zero (by omega)
      have hexecutors : s'.executors s.conns.length = [] := by rw [h]; exact hempty
      simp [Owned, hexecutors, hself, hinput]
    · exact (hsame fd hfd).owned (hs.owned fd)
  · rw [h]
    exact hs.once
  · intro r hr
    rw [h] at hr
    obtain ⟨mask, hm, hand⟩ := hs.registered r hr
    have hne : r.1 ≠ s.conns.length := by
      intro heq
      rw [heq, hmask] at hm
      cases hm
    exact ⟨mask, (hsame r.1 hne).mask.trans hm, hand⟩
  · rw [h, List.length_append, List.length_singleton] at hlt
    by_cases hfd : fd = s.conns.length
    · subst hfd
      exact Or.inr (.registered hself hinput)
    · exact Or.inl (by omega)

theorem Sound.poll (hs : Sound s) {revents : Nat → Option Nat} (h : Server.step cfg s (.poll revents) = some s') :
    Simulates cfg (.poll revents) s s' := by
  rw [Server.step] at h
  split at h
  · have h := (Option.some.inj h).symm
    have hsame : ∀ fd, Same s s' fd := fun fd => by
      rw [h]
      exact ⟨rfl, rfl, .refl _, le_rfl⟩
    refine .quiet hsame (by rw [h]) ⟨fun fd => (hsame fd).owned (hs.owned fd), ?_, ?_⟩ fun _ => rfl
    · have hsub : (s'.ready.map Prod.fst).Sublist (s.reactor.handlersStates.map Prod.fst) := by
        rw [h]
        simp only
        generalize s.reactor.handlersStates = states
        induction states with
        | nil => exact .slnil
        | cons state states ih =>
          rw [List.filterMap_cons]
          cases revents state.1 with
          | none => exact ih.cons _
          | some r => exact ih.cons_cons _
      exact hsub.nodup s.reactor.distinct
    · intro r hr
      rw [h] at hr
      obtain ⟨⟨fd, mask⟩, hmem, hr⟩ := List.mem_filterMap.mp hr
      obtain ⟨events, -, rfl⟩ := Option.map_eq_some_iff.mp hr
      refine ⟨mask, ?_, ?_⟩
      · rw [(hsame fd).mask]
        exact Reactor.mask?_of_mem hmem
      · simp only [Nat.and_assoc, Nat.and_self]
  · cases h

theorem Sound.loop (hs : Sound s) {e : Event} {pe : PoolExecutorFactory.Event (PoolExecutor M)}
    (h : s.poolStep pe = some s') (hregisters : registers pe = []) (hfinishes : finishes s.pool pe = [])
    (he : ∀ fd, e.at s fd = none) : Simulates cfg e s s' := by
  obtain ⟨pool, hpool, rfl⟩ := Option.map_eq_some_iff.mp h
  have hheld := held_step (step_of hpool)
  rw [hregisters, hfinishes, List.nil_append, List.nil_append] at hheld
  have hsame : ∀ fd, Same s { s with pool } fd := fun fd => ⟨rfl, rfl, hheld.symm.filter _, le_rfl⟩
  exact .quiet hsame rfl (hs.same hsame rfl) he

theorem Sound.dispatch (hs : Sound s) {io : Io} {date : String} {notified : Option Nat}
    (h : Server.step cfg s (.dispatch io date notified) = some s') :
    Simulates cfg (.dispatch io date notified) s s' := by
  rw [Server.step] at h
  split at h
  · cases h
  · rename_i fd revents ready hready
    obtain ⟨mask, hmask, h⟩ := Option.bind_eq_some_iff.mp h
    obtain ⟨conn, hconn, h⟩ := Option.bind_eq_some_iff.mp h
    obtain ⟨handled, hinvoke, h⟩ := Option.bind_eq_some_iff.mp h
    have honce := hs.once
    rw [hready, List.map_cons, List.nodup_cons] at honce
    obtain ⟨mask', hmask', hand⟩ := hs.registered (fd, revents) (hready ▸ List.mem_cons_self)
    obtain rfl := Option.some.inj (hmask.symm.trans hmask')
    have hhandles := after_handles (s := { s with ready }) (hs.owned fd) hconn hmask h
    refine ⟨hs.handles hhandles honce.2 fun r hr => ⟨hready ▸ List.mem_cons_of_mem _ hr, ?_⟩, fun fd' x hx => ?_,
      fun fd' hlt => Or.inl (hhandles.length ▸ hlt), fun _ => hhandles.length⟩
    · rintro rfl
      exact honce.1 (List.mem_map.mpr ⟨r, hr, rfl⟩)
    · by_cases hfd : fd' = fd
      · subst hfd
        obtain rfl := hx.eq_registered (hs.owned fd') hconn hmask
        refine ⟨_, hhandles.shows, ?_⟩
        have hat := invoke_follows hand hinvoke
        split at hat
        · rename_i hio
          simpa [Event.at, Event.own, hready, hio] using hat
        · rename_i hio
          simpa [Event.at, Event.own, hready, hio] using hat
      · obtain ⟨hconn', hmask', hexecutors, hlength⟩ := hhandles.same fd' hfd
        have hsame : Same s s' fd' := ⟨hconn', hmask', hexecutors, hlength⟩
        refine ⟨x, hsame.shows hx, ?_⟩
        have hat : Event.at s fd' (.dispatch io date notified) = none := by
          simp only [Event.at, Event.own, hready]
          split <;> simp [Ne.symm hfd]
        rw [hat]
        rfl

theorem Sound.finish (hs : Sound s) {t : Nat} {content : List Char} {date : String}
    (h : Server.step cfg s (.finish t content date) = some s') :
    Simulates cfg (.finish t content date) s s' := by
  obtain ⟨⟨fd, m⟩, hx, h⟩ := Option.bind_eq_some_iff.mp h
  obtain ⟨conn, hconn, h⟩ := Option.bind_eq_some_iff.mp h
  obtain ⟨s1, h1, h⟩ := Option.bind_eq_some_iff.mp h
  obtain ⟨pool, hpool, rfl⟩ := Option.map_eq_some_iff.mp h1
  have h := (Option.some.inj h).symm
  have hexecutors := perm_finish hpool hx (congrArg Server.pool h)
  have hready := congrArg Server.ready h
  have hset := conn?_set (lt_of_conn? hconn) (congrArg Server.conns h)
  have hmem := mem_executors hx
  obtain ⟨hnone, hone⟩ := (hs.owned fd).busy hmem
  have hempty : s'.executors fd = [] := by
    have hlen := (hexecutors fd).length_eq
    rw [hone] at hlen
    exact List.eq_nil_of_length_eq_zero (by simpa using hlen)
  have hreactor : s'.reactor = s.reactor.registerHandler fd OUTPUT := congrArg Server.reactor h
  have hmask : s'.reactor.mask? fd = some OUTPUT := by simp [hreactor, Reactor.mask?_register, hnone]
  have hself : s'.conn? fd = some (conn.answer cfg content date) := (hset fd).trans (if_pos rfl)
  have hhandles : Handles { s with ready := s.ready } s' fd (.registered OUTPUT (conn.answer cfg content date)) := by
    refine ⟨.registered hself hmask, ?_, hready, by simp [h, setConn], fun fd' hne => ⟨?_, ?_, ?_, ?_⟩⟩
    · simp [Owned, hself, hmask, hempty]
    · exact (hset fd').trans (if_neg hne)
    · simp [hreactor, Reactor.mask?_register, hne]
    · simpa [Ne.symm hne] using (hexecutors fd').symm
    · simp [h, setConn]
  refine ⟨hs.handles hhandles hs.once fun r hr => ⟨hr, ?_⟩, fun fd' x hx' => ?_,
    fun fd' hlt => Or.inl (hhandles.length ▸ hlt), fun _ => hhandles.length⟩
  · rintro rfl
    obtain ⟨mask, hmask', -⟩ := hs.registered r hr
    cases hnone.symm.trans hmask'
  · by_cases hfd : fd' = fd
    · subst hfd
      obtain rfl := hx'.eq_executing (hs.owned fd') hconn hmem
      refine ⟨_, hhandles.shows, ?_⟩
      simp only [Event.at, Event.own, hx, Option.map_some, Option.bind_some, if_true]
      rfl
    · have hsame : Same s s' fd' := hhandles.same fd' hfd
      refine ⟨x, hsame.shows hx', ?_⟩
      simp only [Event.at, Event.own, hx, Option.map_some, Option.bind_some, if_neg (Ne.symm hfd)]
      rfl

/-- **One step of the server.** -/
theorem Sound.step (hs : Sound s) {e : Event} (h : Server.step cfg s e = some s') : Simulates cfg e s s' := by
  cases e with
  | accept => exact hs.accept h
  | poll revents => exact hs.poll h
  | dispatch io date notified => exact hs.dispatch h
  | addThreads num => exact hs.loop h rfl rfl fun _ => rfl
  | lock t => exact hs.loop h rfl rfl fun _ => rfl
  | wake t => exact hs.loop h rfl rfl fun _ => rfl
  | resume t => exact hs.loop h rfl rfl fun _ => rfl
  | finish t content date => exact hs.finish h

/-! ## Every run -/

theorem sound_new : Sound ({} : Server M) where
  owned _ := by simp [Owned, executors, held, executed, Reactor.mask?, conn?]
  once := List.nodup_nil
  registered _ h := absurd h List.not_mem_nil

theorem sound_of_reaches (h : Reaches (Server.step cfg) (fun _ _ => True) {} s) : Sound s :=
  h.invariant sound_new fun _ _ _ hs _ hstep => (hs.step hstep).sound

/-- **No handler is missing and no connection is used after it was deleted.** In every state that
the server reaches, the connection of each result of `poll` is registered and alive, and so is the
connection of each executor; a live connection is registered or executes one method. -/
theorem server_sound (h : Reaches (Server.step cfg) (fun _ _ => True) {} s) :
    (∀ r ∈ s.ready, (s.reactor.mask? r.1).isSome ∧ (s.conn? r.1).isSome) ∧
      (∀ x ∈ s.pool.held, s.reactor.mask? x.conn = none ∧ (s.conn? x.conn).isSome) ∧
      ∀ fd, (s.conn? fd).isSome →
        Xor (s.reactor.mask? fd).isSome (∃ m, s.executors fd = [⟨fd, m⟩]) := by
  have hs := sound_of_reaches h
  have hmem : ∀ x ∈ s.pool.held, x ∈ s.executors x.conn := fun x hx => by simp [executors, hx]
  refine ⟨fun r hr => ?_, fun x hx => ?_, fun fd hconn => ?_⟩
  · obtain ⟨mask, hmask, -⟩ := hs.registered r hr
    have hown := hs.owned r.1
    rw [Owned, hmask, Option.isSome_some, Bool.toNat_true] at hown
    cases hconn : s.conn? r.1 with
    | none => simp [hconn] at hown
    | some conn => simp [hmask]
  · obtain ⟨hnone, hone⟩ := (hs.owned x.conn).busy (hmem x hx)
    have hown := hs.owned x.conn
    rw [Owned, hnone, hone] at hown
    cases hconn : s.conn? x.conn with
    | none => simp [hconn] at hown
    | some conn => exact ⟨hnone, rfl⟩
  · have hown := hs.owned fd
    rw [Owned, hconn, Bool.toNat_true] at hown
    cases hmask : s.reactor.mask? fd with
    | some mask =>
      refine Or.inl ⟨rfl, ?_⟩
      rintro ⟨m, hm⟩
      simp [(hs.owned fd).idle hmask] at hm
    | none =>
      rw [hmask] at hown
      obtain ⟨⟨fd', m⟩, hx⟩ := List.length_eq_one_iff.mp (show (s.executors fd).length = 1 by simpa using hown)
      have hfd : fd' = fd := by
        have hx' : (⟨fd', m⟩ : PoolExecutor M) ∈ s.executors fd := by simp [hx]
        simpa [executors] using (List.mem_filter.mp hx').2
      exact Or.inr ⟨⟨m, hfd ▸ hx⟩, by simp⟩

/-- A server whose methods are its requests. -/
def echo : ServerConfig (List Char) where
  package := "p"
  createMethod := .ok

/-- The first of two connections has sent its request, and the second one is still to be handled. -/
def twoClients : List Event :=
  [.accept, .accept, .addThreads 1, .poll fun _ => some INPUT,
    .dispatch (.recv "POST / HTTP/1.0\r\ncontent-length: 3\r\n\r\nabc".toList) "" none, .lock 0]

def view (s : Server (List Char)) : List (Nat × Nat) × List (Nat × List Char) × List Bool :=
  (s.ready, s.pool.held.map fun x => (x.conn, x.method), s.conns.map Option.isSome)

theorem twoClients_view : (play (Server.step echo) (fun _ _ => true) {} twoClients).map view =
    some ([(1, INPUT)], [(0, "abc".toList)], [true, true]) := by decide +kernel

theorem server_sound_of_two : ∃ s, view s = ([(1, INPUT)], [(0, "abc".toList)], [true, true]) ∧
    (∀ r ∈ s.ready, (s.reactor.mask? r.1).isSome ∧ (s.conn? r.1).isSome) ∧
      (∀ x ∈ s.pool.held, s.reactor.mask? x.conn = none ∧ (s.conn? x.conn).isSome) ∧
      ∀ fd, (s.conn? fd).isSome →
        Xor (s.reactor.mask? fd).isSome (∃ m, s.executors fd = [⟨fd, m⟩]) := by
  obtain ⟨s, hplay, hview⟩ := Option.map_eq_some_iff.mp twoClients_view
  exact ⟨s, hview, server_sound ((reaches_of_play hplay).weaken fun _ _ _ => trivial)⟩

/-- **The clients do not disturb each other.** Whatever happens on the other connections and in the
pool, a connection stands as a session alone on its connection can stand. -/
theorem sessions_alone (h : Reaches (Server.step cfg) (fun _ _ => True) {} s) (hlt : fd < s.conns.length) :
    ∃ x, Shows s fd x ∧ Reaches (Session.step cfg) (fun _ _ => True) (.registered INPUT {}) x := by
  revert fd
  refine h.invariant_of (I := Sound)
    (J := fun s => ∀ {fd : Nat}, fd < s.conns.length →
      ∃ x, Shows s fd x ∧ Reaches (Session.step cfg) (fun _ _ => True) (.registered INPUT {}) x)
    (fun _ => sound_of_reaches) (fun hlt => absurd hlt (Nat.not_lt_zero _)) ?_
  intro s s' e hs _ hall _ hstep fd hlt
  obtain ⟨-, hfollows, hopened, -⟩ := hs.step hstep
  rcases hopened fd hlt with hlt | hnew
  · obtain ⟨x, hx, hrun⟩ := hall hlt
    obtain ⟨x', hx', hfollow⟩ := hfollows fd x hx
    refine ⟨x', hx', ?_⟩
    rcases hat : e.at s fd with _ | ev
    · rw [hat] at hfollow
      obtain rfl := hfollow
      exact hrun
    · rw [hat] at hfollow
      exact hrun.tail trivial hfollow
  · exact ⟨_, hnew, Reaches.refl _⟩

theorem sessions_alone_of_two : ∃ s, view s = ([(1, INPUT)], [(0, "abc".toList)], [true, true]) ∧
    ∃ x, Shows s 0 x ∧ Reaches (Session.step echo) (fun _ _ => True) (.registered INPUT {}) x := by
  obtain ⟨s, hplay, hview⟩ := Option.map_eq_some_iff.mp twoClients_view
  have hconns := congrArg (fun v => v.2.2.length) hview
  simp only [view, List.length_map] at hconns
  exact ⟨s, hview, sessions_alone ((reaches_of_play hplay).weaken fun _ _ _ => trivial) (by rw [hconns]; decide)⟩

end Server

end DispCalc.Iqxmlrpc
