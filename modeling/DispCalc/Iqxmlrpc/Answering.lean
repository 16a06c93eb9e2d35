import DispCalc.Iqxmlrpc.Network

/-!
# Every call can be answered

Whatever has happened to the server, a client that waits can get its response, without any help
from the others.
-/

open Runs

namespace DispCalc.Iqxmlrpc

open ServerConnection

/-! ## The pool -/

namespace PoolExecutorFactory

variable {E : Type} {p p' : PoolExecutorFactory E}

theorem inDestructor_step {e : Event E} (h : Step p e p') (he : e ≠ .destructionStarted) :
    p'.inDestructor = p.inDestructor := by
  cases h with
  | destruct hd => exact absurd rfl he
  | _ => rfl

theorem threads_step {e : Event E} (h : Step p e p') (ht : p.threads ≠ []) : p'.threads ≠ [] := by
  cases h with
  | push executor h => exact ht
  | addThreads num => simp [ht]
  | destruct hd => simpa using ht
  | _ => simp

/-- No thread has left its loop. -/
structure Open (p : PoolExecutorFactory E) : Prop where
  working : Working p
  stays : p.inDestructor = false

theorem Open.step {e : Event E} (h : Open p) (hs : p.step e = some p') (he : e ≠ .destructionStarted) : Open p' where
  working := h.working.step (step_of hs)
  stays := (inDestructor_step (step_of hs) he).trans h.stays

theorem exists_notified (p : PoolExecutorFactory E) (x : E) :
    ∃ notified p', p.step (.registerExecutor x notified) = some p' := by
  by_cases h : p.threads.any isWaiting
  · obtain ⟨t, th, hget, hth⟩ := exists_thread h
    cases th with
    | waiting => exact ⟨some t, _, by rw [PoolExecutorFactory.step, hget]⟩
    | _ => cases hth
  · exact ⟨none, _, if_neg h⟩

end PoolExecutorFactory

/-! ## The server -/

namespace Server

open PoolExecutorFactory

variable {M : Type} {cfg : ServerConfig M} {s s' : Server M}

/-- A step of the server is nothing to the pool, or a step of it that does not shut it down. -/
def Keeps (p p' : PoolExecutorFactory (PoolExecutor M)) : Prop :=
  p' = p ∨ ∃ e, e ≠ .destructionStarted ∧ p.step e = some p'

theorem keeps_poolStep {e : PoolExecutorFactory.Event (PoolExecutor M)} (hs : s.poolStep e = some s')
    (he : e ≠ .destructionStarted) : Keeps s.pool s'.pool := by
  obtain ⟨pool, hpool, rfl⟩ := Option.map_eq_some_iff.mp hs
  exact Or.inr ⟨e, he, hpool⟩

theorem keeps_after {fd : Nat} {notified : Option Nat} {h : Handled M × ServerConnection}
    (hs : s.after fd notified h = some s') : Keeps s.pool s'.pool := by
  obtain ⟨h, conn⟩ := h
  cases h with
  | execute m =>
    obtain ⟨pool, hpool, hs⟩ := Option.bind_eq_some_iff.mp hs
    obtain rfl := Option.some.inj hs
    exact Or.inr ⟨.registerExecutor ⟨fd, m⟩ notified, by simp, hpool⟩
  | _ =>
    obtain rfl := Option.some.inj hs
    exact Or.inl rfl

theorem keeps_step {e : Event} (hs : s.step cfg e = some s') : Keeps s.pool s'.pool := by
  cases e with
  | accept =>
    obtain rfl := Option.some.inj hs
    exact Or.inl rfl
  | poll revents =>
    rw [Server.step] at hs
    split at hs
    · obtain rfl := Option.some.inj hs
      exact Or.inl rfl
    · cases hs
  | dispatch io date notified =>
    rw [Server.step] at hs
    split at hs
    · cases hs
    · rename_i ready _
      obtain ⟨mask, -, hs⟩ := Option.bind_eq_some_iff.mp hs
      obtain ⟨conn, -, hs⟩ := Option.bind_eq_some_iff.mp hs
      obtain ⟨handled, -, hs⟩ := Option.bind_eq_some_iff.mp hs
      exact keeps_after (s := { s with ready }) hs
  | addThreads num => exact keeps_poolStep hs (by simp)
  | lock t => exact keeps_poolStep hs (by simp)
  | wake t => exact keeps_poolStep hs (by simp)
  | resume t => exact keeps_poolStep hs (by simp)
  | finish t content date =>
    obtain ⟨x, -, hs⟩ := Option.bind_eq_some_iff.mp hs
    obtain ⟨conn, -, hs⟩ := Option.bind_eq_some_iff.mp hs
    obtain ⟨s1, h1, hs⟩ := Option.bind_eq_some_iff.mp hs
    have hkeeps : Keeps s.pool s1.pool := keeps_poolStep h1 (by simp)
    obtain rfl := Option.some.inj hs
    exact hkeeps

theorem Keeps.open {p p' : PoolExecutorFactory (PoolExecutor M)} (h : Keeps p p') (hp : Open p) : Open p' := by
  rcases h with rfl | ⟨e, he, hs⟩
  · exact hp
  · exact hp.step hs he

theorem Keeps.threads {p p' : PoolExecutorFactory (PoolExecutor M)} (h : Keeps p p') (ht : p.threads ≠ []) :
    p'.threads ≠ [] := by
  rcases h with rfl | ⟨e, -, hs⟩
  · exact ht
  · exact threads_step (step_of hs) ht

theorem exists_after (s : Server M) (fd : Nat) (h : Handled M × ServerConnection) :
    ∃ notified s', s.after fd notified h = some s' ∧ s'.ready = s.ready := by
  obtain ⟨h, conn⟩ := h
  cases h with
  | execute m =>
    obtain ⟨notified, pool, hpool⟩ := exists_notified s.pool ⟨fd, m⟩
    refine ⟨notified, { s.setConn fd (some conn) with
      reactor := s.reactor.unregisterHandler fd INPUT, pool }, ?_, rfl⟩
    rw [after, hpool]
    rfl
  | _ => exact ⟨none, _, rfl, rfl⟩

theorem Owned.conn {fd mask : Nat} (h : Owned s fd) (hmask : s.reactor.mask? fd = some mask) :
    ∃ conn, s.conn? fd = some conn := by
  have hidle := h.idle hmask
  rw [Owned, hidle, hmask] at h
  exact Option.isSome_iff_exists.mp (by simpa using h.symm)

theorem Owned.conn_of_mem {fd : Nat} {x : PoolExecutor M} (h : Owned s fd) (hx : x ∈ s.executors fd) :
    ∃ conn, s.conn? fd = some conn := by
  obtain ⟨hnone, hone⟩ := h.busy hx
  rw [Owned, hnone, hone] at h
  exact Option.isSome_iff_exists.mp (by simpa using h.symm)

theorem exists_finish (cfg : ServerConfig M) (hs : Sound s) {t : Nat} {pool : PoolExecutorFactory (PoolExecutor M)}
    (hpool : s.pool.step (.finish t) = some pool) : ∃ fd m conn, s.executor? t = some ⟨fd, m⟩ ∧
      s.conn? fd = some conn ∧ Shows s fd (.executing m conn) ∧
      ∀ body date, ∃ s', s.step cfg (.finish t body date) = some s' ∧ s'.pool = pool := by
  have hexecutor : ∃ x, s.executor? t = some x := by
    rw [PoolExecutorFactory.step] at hpool
    split at hpool
    · rename_i x hget
      exact ⟨x, by rw [executor?, hget]; rfl⟩
    · cases hpool
  obtain ⟨⟨fd, m⟩, hexecutor⟩ := hexecutor
  have hmem := mem_executors hexecutor
  obtain ⟨conn, hconn⟩ := (hs.owned fd).conn_of_mem hmem
  refine ⟨fd, m, conn, hexecutor, hconn, .executing hconn hmem, fun body date => ?_⟩
  simp only [Server.step, hexecutor, hconn, poolStep, hpool, Option.bind_eq_bind, Option.bind_some, Option.map_some]
  exact ⟨_, rfl, rfl⟩

theorem Sound.exists_dispatch (hs : Sound s) {fd revents : Nat} {rest : List (Nat × Nat)}
    (hready : s.ready = (fd, revents) :: rest) {conn : ServerConnection} (hconn : s.conn? fd = some conn)
    {io : Io} {date : String} {h : Handled M × ServerConnection} (hi : conn.invoke cfg revents io date = some h) :
    ∃ notified s', s.step cfg (.dispatch io date notified) = some s' ∧ s'.ready = rest := by
  obtain ⟨mask, hmask, -⟩ := hs.registered (fd, revents) (hready ▸ List.mem_cons_self)
  obtain ⟨notified, s', hafter, hrest⟩ := exists_after { s with ready := rest } fd h
  refine ⟨notified, s', ?_, hrest⟩
  have hmask : s.reactor.mask? fd = some mask := hmask
  simp only [Server.step, hready, hmask, hconn, hi, Option.bind_eq_bind, Option.bind_some]
  exact hafter

theorem exists_shows {fd : Nat} (hs : Owned s fd) (hlt : fd < s.conns.length) : ∃ x, Shows s fd x := by
  rcases hconn : s.conn? fd with _ | conn
  · exact ⟨_, .closed hlt hconn⟩
  · rcases hmask : s.reactor.mask? fd with _ | mask
    · rw [Owned, hconn, hmask] at hs
      obtain ⟨x, hx⟩ := List.exists_mem_of_length_pos (l := s.executors fd) (by simp at hs; omega)
      have hfd := (List.mem_filter.mp hx).2
      obtain ⟨fd', m⟩ := x
      obtain rfl : fd' = fd := by simpa using hfd
      exact ⟨_, .executing hconn hx⟩
    · exact ⟨_, .registered hconn hmask⟩

theorem Shows.unique {fd : Nat} {x y : Session M} (hx : Shows s fd x) (hy : Shows s fd y) (hs : Owned s fd) :
    x = y := by
  cases hy with
  | registered hconn hmask => exact hx.eq_registered hs hconn hmask
  | executing hconn hmem => exact hx.eq_executing hs hconn hmem
  | closed hlt hconn =>
    cases hx with
    | registered hconn' _ => cases hconn.symm.trans hconn'
    | executing hconn' _ => cases hconn.symm.trans hconn'
    | closed _ _ => rfl

end Server

/-! ## The reactor -/

theorem Reactor.filterMap_own {r : Reactor} {fd mask : Nat} (h : r.mask? fd = some mask) :
    r.handlersStates.filterMap (fun (fd', mask') =>
      (if fd' = fd then some mask else none).map fun revents => (fd', revents &&& mask')) = [(fd, mask)] := by
  obtain ⟨states, distinct⟩ := r
  unfold mask? at h
  simp only at h distinct ⊢
  induction states with
  | nil => cases h
  | cons state states ih =>
    obtain ⟨fd', mask'⟩ := state
    rw [List.map_cons, List.nodup_cons] at distinct
    rw [lookup_cons] at h
    by_cases hfd : fd = fd'
    · subst hfd
      rw [if_pos rfl] at h
      obtain rfl := Option.some.inj h
      rw [List.filterMap_cons, if_pos rfl, Option.map_some, Nat.and_self, List.cons.injEq]
      refine ⟨rfl, List.filterMap_eq_nil_iff.mpr fun state hmem => ?_⟩
      have hne : state.1 ≠ fd := fun heq => distinct.1 (List.mem_map.mpr ⟨state, hmem, heq⟩)
      simp [hne]
    · rw [if_neg hfd] at h
      rw [List.filterMap_cons, if_neg (Ne.symm hfd), Option.map_none]
      exact ih distinct.2 h

theorem eq_zero_or_eq {revents mask : Nat} (hmask : mask = INPUT ∨ mask = OUTPUT)
    (h : revents &&& mask = revents) : revents = 0 ∨ revents = mask := by
  have hle : revents ≤ mask := h ▸ Nat.and_le_right
  rcases hmask with rfl | rfl
  · unfold INPUT at *
    omega
  · unfold OUTPUT at *
    have hne : revents ≠ 1 := by
      rintro rfl
      cases h
    omega

/-! ## The network -/

namespace Network

variable {M : Type}

/-- An event of the server or of connection `i`. -/
def Event.within (i : Nat) : Event → Prop
  | .connect _ => False
  | .link j _ => j = i
  | .server _ => True

/-- What happens while the server serves connection `i` and the other clients do nothing. -/
def Continues (cfg : ServerConfig M) (serves : M → List Char → Prop) (lev : Nat → VerificationLevel) (i : Nat) :
    Network M → Network M → Prop :=
  Reaches (step cfg lev) fun n e => Allowed cfg serves n e ∧ e.within i

/-- A method can make a response. -/
def Responds (cfg : ServerConfig M) (serves : M → List Char → Prop) (date : String) (m : M) : Prop :=
  ∃ body, serves m body ∧ Answerable cfg.package date body

/-- The server can go on: its pool has threads, and every method that is called can make a response. -/
structure Able (cfg : ServerConfig M) (serves : M → List Char → Prop) (date : String) (n : Network M) : Prop where
  kept : Kept cfg serves n
  pool : n.server.pool.Open
  threads : n.server.pool.threads ≠ []
  bodies : ∀ fd m conn, n.server.Shows fd (.executing m conn) → Responds cfg serves date m

variable {cfg : ServerConfig M} {serves : M → List Char → Prop} {lev : Nat → VerificationLevel} {date : String}
  {n n' : Network M} {i : Nat} {c : Call} {l : Link} {x : Session M}

theorem Able.server {e : Server.Event} (h : Able cfg serves date n) (hok : Allowed cfg serves n (.server e))
    (hs : n.step cfg lev (.server e) = some n')
    (hnew : ∀ fd own x m conn, e.own n.server = some (fd, own) → n.server.Shows fd x →
      Session.step cfg x own = some (.executing m conn) → Responds cfg serves date m) : Able cfg serves date n' := by
  have hserves := serves_of_step h.kept hs
  obtain ⟨hsound, hfollows, hopened, -⟩ := h.kept.sound.step hserves.server
  have hkeeps := Server.keeps_step hserves.server
  refine ⟨h.kept.step hok hs, hkeeps.open h.pool, hkeeps.threads h.threads, fun fd m conn hx' => ?_⟩
  rcases hopened fd hx'.lt with hlt | hopen
  · obtain ⟨x, hx⟩ := Server.exists_shows (h.kept.sound.owned fd) hlt
    obtain ⟨x', hshows, hfollow⟩ := hfollows fd x hx
    obtain rfl := hshows.unique hx' (hsound.owned fd)
    unfold Server.Event.at at hfollow
    rcases hown : e.own n.server with _ | ⟨fd', own⟩
    · rw [hown] at hfollow
      obtain rfl := hfollow
      exact h.bodies fd m conn hx
    · rw [hown] at hfollow
      by_cases hfd : fd' = fd
      · subst hfd
        simp only [Option.bind_some, if_true] at hfollow
        exact hnew fd' own x m conn hown hx hfollow
      · simp only [Option.bind_some, if_neg hfd] at hfollow
        obtain rfl := hfollow
        exact h.bodies fd m conn hx
  · cases hopen.unique hx' (hsound.owned fd)

theorem reads_of_executing {own : Session.Event} {m : M} {conn : ServerConnection}
    (h : Session.step cfg x own = some (.executing m conn)) : ∃ s date, own = .io (.recv s) date := by
  cases own with
  | io io date =>
    cases io with
    | recv s => exact ⟨s, date, rfl⟩
    | send sz =>
      cases x with
      | registered mask conn =>
        simp only [Session.step] at h
        split at h
        · unfold handleOutput at h
          split at h
          · split at h <;> cases h
          · cases h
        · cases h
      | _ => cases h
    | fail => cases x <;> cases h
  | answer body date => cases x <;> cases h

theorem Able.own {e : Server.Event} {own : Session.Event} (h : Able cfg serves date n) (hon : On cfg serves n i c l x)
    (hacc : c.Accepted cfg.maxReqSz) (hcalled : ∀ m, cfg.createMethod c.content = .ok m → Responds cfg serves date m)
    (hok : Allowed cfg serves n (.server e)) (hs : n.step cfg lev (.server e) = some n')
    (hown : e.own n.server = some (i, own)) :
    Able cfg serves date n' ∧ ∃ conn l' x', n.server.conn? i = some conn ∧
      l.transfer conn.response own = some l' ∧ Session.step cfg x own = some x' ∧ On cfg serves n' i c l' x' := by
  obtain ⟨conn, l', x', hconn, hl', hx', hon'⟩ := hon.own h.kept (serves_of_step h.kept hs) hok hacc hown
  refine ⟨h.server hok hs fun fd own' y m conn' heq hy hstep => ?_, conn, l', x', hconn, hl', hx', hon'⟩
  obtain ⟨rfl, rfl⟩ := Prod.mk.inj (Option.some.inj (hown.symm.trans heq))
  obtain rfl := hy.unique hon.shows (h.kept.sound.owned i)
  obtain rfl := Option.some.inj (hx'.symm.trans hstep)
  cases hon'.joint with
  | executing hm _ _ => exact hcalled m hm

theorem exists_server (lev : Nat → VerificationLevel) {e : Server.Event} (he : e ≠ .accept) {server : Server M}
    (hs : n.server.step cfg e = some server)
    (ht : ∀ fd own, e.own n.server = some (fd, own) → ∃ conn l l', n.server.conn? fd = some conn ∧
      n.links[fd]? = some l ∧ l.transfer conn.response own = some l') :
    ∃ n', n.step cfg lev (.server e) = some n' ∧ n'.server = server := by
  rw [step_server he, hs]
  rcases hown : e.own n.server with _ | ⟨fd, own⟩
  · exact ⟨_, rfl, rfl⟩
  · obtain ⟨conn, l, l', hconn, hl, hl'⟩ := ht fd own hown
    simp only [Option.bind_eq_bind, Option.bind_some, hconn, hl, hl']
    exact ⟨_, rfl, rfl⟩

theorem own_dispatch {s : Server M} {fd revents : Nat} {rest : List (Nat × Nat)}
    (hready : s.ready = (fd, revents) :: rest) (io : Io) (date : String) (notified : Option Nat) :
    Server.Event.own s (.dispatch io date notified) =
      if revents &&& INPUT ≠ 0 ∨ revents &&& OUTPUT ≠ 0 then some (fd, .io io date) else none := by
  simp only [Server.Event.own, hready]

theorem exists_invoke_fail (cfg : ServerConfig M) (conn : ServerConnection) (revents : Nat) (date : String) :
    ∃ h, conn.invoke cfg revents .fail date = some h := by
  unfold invoke
  split
  · exact ⟨_, rfl⟩
  · split <;> exact ⟨_, rfl⟩

theorem Continues.server {e : Server.Event} (hok : Allowed cfg serves n (.server e))
    (h : n.step cfg lev (.server e) = some n') : Continues cfg serves lev i n n' :=
  (Reaches.refl n).tail ⟨hok, trivial⟩ h

section Faults

variable (hfault : ∀ request fault, cfg.Fits request → cfg.createMethod request = .error fault →
  Answerable cfg.package date fault)

include hfault

theorem Able.skip (lev : Nat → VerificationLevel) (h : Able cfg serves date n) {fd revents : Nat}
    {rest : List (Nat × Nat)} (hready : n.server.ready = (fd, revents) :: rest) (hi : fd ≠ i ∨ revents = 0) :
    ∃ n', Continues cfg serves lev i n n' ∧ Able cfg serves date n' ∧ n'.server.ready = rest ∧
      ∀ c l x, On cfg serves n i c l x → On cfg serves n' i c l x := by
  obtain ⟨mask, hmask, -⟩ := h.kept.sound.registered (fd, revents) (hready ▸ List.mem_cons_self)
  obtain ⟨conn, hconn⟩ := (h.kept.sound.owned fd).conn hmask
  obtain ⟨l, hl⟩ : ∃ l, n.links[fd]? = some l :=
    ⟨_, List.getElem?_eq_getElem ((Server.lt_of_conn? hconn).trans_le h.kept.accepted)⟩
  obtain ⟨handled, hinvoke⟩ := exists_invoke_fail cfg conn revents date
  obtain ⟨notified, server, hserver, hrest⟩ := h.kept.sound.exists_dispatch hready hconn hinvoke
  have hown := own_dispatch hready .fail date notified
  have hall : ∀ fd' own, Server.Event.own n.server (.dispatch .fail date notified) = some (fd', own) →
      fd' = fd ∧ own = .io .fail date ∧ fd ≠ i := by
    intro fd' own heq
    rw [hown] at heq
    split at heq
    · rename_i hevents
      obtain ⟨rfl, rfl⟩ := Prod.mk.inj (Option.some.inj heq)
      refine ⟨rfl, rfl, hi.resolve_right ?_⟩
      rintro rfl
      simp at hevents
    · cases heq
  obtain ⟨n', hstep, rfl⟩ :=
    exists_server lev (e := .dispatch .fail date notified) (by simp) hserver fun fd' own heq => by
      obtain ⟨rfl, rfl, -⟩ := hall fd' own heq
      exact ⟨conn, l, l, hconn, hl, rfl⟩
  have hok : Allowed cfg serves n (.server (.dispatch .fail date notified)) := hfault
  refine ⟨n', .server hok hstep, h.server hok hstep fun fd' own x m conn heq _ hx => ?_, hrest,
    fun c l x hx => hx.quiet h.kept (serves_of_step h.kept hstep) fun own heq => ?_⟩
  · obtain ⟨s, date', hread⟩ := reads_of_executing hx
    cases hread.symm.trans (hall fd' own heq).2.1
  · obtain ⟨heq, -, hne⟩ := hall i own heq
    exact hne heq.symm

theorem Able.turn (lev : Nat → VerificationLevel) (h : Able cfg serves date n) {mask : Nat} {conn : ServerConnection}
    (hon : On cfg serves n i c l (.registered mask conn)) (hmask : mask = INPUT ∨ mask = OUTPUT) :
    ∃ n' rest, Continues cfg serves lev i n n' ∧ Able cfg serves date n' ∧
      On cfg serves n' i c l (.registered mask conn) ∧ n'.server.ready = (i, mask) :: rest := by
  induction hready : n.server.ready generalizing n with
  | nil =>
    obtain ⟨hlink, hjoint, hshows⟩ := hon
    have hm : n.server.reactor.mask? i = some mask := by
      cases hshows with
      | registered hconn hm => exact hm
    let poll : Server.Event := .poll fun fd => if fd = i then some mask else none
    have hok : Allowed cfg serves n (.server poll) := trivial
    obtain ⟨n', hstep, hserver⟩ := exists_server lev (e := poll) nofun (if_pos hready) nofun
    have hon' := On.quiet ⟨hlink, hjoint, hshows⟩ h.kept (serves_of_step h.kept hstep) nofun
    refine ⟨n', [], .server hok hstep, h.server hok hstep nofun, hon', ?_⟩
    rw [hserver]
    exact Reactor.filterMap_own hm
  | cons result rest ih =>
    obtain ⟨fd, revents⟩ := result
    have hskip : fd ≠ i ∨ revents = 0 → ∃ n' rest, Continues cfg serves lev i n n' ∧ Able cfg serves date n' ∧
        On cfg serves n' i c l (.registered mask conn) ∧ n'.server.ready = (i, mask) :: rest := by
      intro hi
      obtain ⟨n₁, hrun, hable, hrest, hon'⟩ := h.skip hfault lev hready hi
      obtain ⟨n', rest', hrun', hable', hon'', hready'⟩ := ih hable (hon' c l _ hon) hrest
      exact ⟨n', rest', hrun.trans hrun', hable', hon'', hready'⟩
    by_cases hfd : fd = i
    · subst hfd
      obtain ⟨mask', hm, hand⟩ := h.kept.sound.registered (fd, revents) (hready ▸ List.mem_cons_self)
      obtain rfl : mask' = mask := by
        cases hon.shows with
        | registered hconn hm' => exact Option.some.inj (hm.symm.trans hm')
      rcases eq_zero_or_eq hmask hand with rfl | rfl
      · exact hskip (Or.inr rfl)
      · exact ⟨n, rest, Reaches.refl n, h, hon, hready⟩
    · exact hskip (Or.inl hfd)

theorem Able.dispatch (lev : Nat → VerificationLevel) (h : Able cfg serves date n) {mask : Nat}
    {conn : ServerConnection} {rest : List (Nat × Nat)} (hon : On cfg serves n i c l (.registered mask conn))
    (hmask : mask = INPUT ∨ mask = OUTPUT) (hready : n.server.ready = (i, mask) :: rest)
    (hacc : c.Accepted cfg.maxReqSz)
    (hcalled : ∀ m, cfg.createMethod c.content = .ok m → Responds cfg serves date m) {io : Io}
    {handled : Handled M × ServerConnection} (hinvoke : conn.invoke cfg mask io date = some handled) {l' : Link}
    (hl' : l.transfer conn.response (.io io date) = some l') {x' : Session M}
    (hx' : Session.step cfg (.registered mask conn) (.io io date) = some x') :
    ∃ n', Continues cfg serves lev i n n' ∧ Able cfg serves date n' ∧ On cfg serves n' i c l' x' := by
  obtain ⟨hlink, hjoint, hshows⟩ := hon
  have hconn : n.server.conn? i = some conn := by
    cases hshows with
    | registered hconn hm => exact hconn
  obtain ⟨notified, server, hserver, -⟩ := h.kept.sound.exists_dispatch hready hconn hinvoke
  have hown : Server.Event.own n.server (.dispatch io date notified) = some (i, .io io date) := by
    rw [own_dispatch hready, if_pos]
    rcases hmask with rfl | rfl
    · exact Or.inl nofun
    · exact Or.inr nofun
  obtain ⟨n', hstep, rfl⟩ := exists_server lev (e := .dispatch io date notified) (by simp) hserver fun fd own heq => by
    obtain ⟨rfl, rfl⟩ := Prod.mk.inj (Option.some.inj (hown.symm.trans heq))
    exact ⟨conn, l, l', hconn, hlink, hl'⟩
  have hok : Allowed cfg serves n (.server (.dispatch io date notified)) := hfault
  obtain ⟨hable, conn', l₁, x₁, hconn', hl₁, hx₁, hon'⟩ :=
    h.own ⟨hlink, hjoint, hshows⟩ hacc hcalled hok hstep hown
  obtain rfl := Option.some.inj (hconn.symm.trans hconn')
  obtain rfl := Option.some.inj (hl'.symm.trans hl₁)
  obtain rfl := Option.some.inj (hx'.symm.trans hx₁)
  exact ⟨n', .server hok hstep, hable, hon'⟩

theorem Able.asked (lev : Nat → VerificationLevel) (h : Able cfg serves date n) {up : List Char}
    {conn : ServerConnection} (hon : On cfg serves n i c ⟨.client c (.receiving {}), up, []⟩ (.registered INPUT conn))
    (hacc : c.Accepted cfg.maxReqSz)
    (hcalled : ∀ m, cfg.createMethod c.content = .ok m → Responds cfg serves date m) :
    ∃ n' up' x, Continues cfg serves lev i n n' ∧ Able cfg serves date n' ∧
      On cfg serves n' i c ⟨.client c (.receiving {}), up', []⟩ x ∧
      ((∃ m conn, x = .executing m conn) ∨ ∃ conn, x = .registered OUTPUT conn) := by
  induction hlen : up.length using Nat.strongRecOn generalizing n up conn with
  | _ len ih =>
    obtain ⟨p, hread, hall⟩ : ∃ p,
        PacketReader.Reading cfg.maxReqSz c.text c.content c.packet.header p conn.preader ∧
          p ++ up ++ [] = c.bytes := by
      cases hon.joint with
      | asking hread hall hc =>
        cases hc
        exact ⟨_, hread, hall⟩
    have hne : up ≠ [] := by
      rintro rfl
      have hlt := hread.lt
      rw [← Call.bytes_eq, ← hall] at hlt
      simp at hlt
    obtain ⟨s, up', rfl, hs, hsz⟩ : ∃ s up', s ++ up' = up ∧ s ≠ [] ∧ s.length ≤ readBufSz :=
      ⟨up.take readBufSz, up.drop readBufSz, List.take_append_drop _ _, by simp [hne, readBufSz],
        List.length_take_le _ _⟩
    obtain ⟨n₁, rest, hrun₁, hable₁, hon₁, hready⟩ := h.turn hfault lev hon (Or.inl rfl)
    have hinvoke : conn.invoke cfg INPUT (.recv s) date = some (conn.handleInput cfg s date) := by
      simp [invoke, INPUT, hsz]
    have hstep : Session.step cfg (.registered INPUT conn) (.io (.recv s) date) =
        some (Session.handled INPUT (conn.handleInput cfg s date)) := by
      simp [Session.step, INPUT, hsz]
    have htransfer : Link.transfer conn.response ⟨.client c (.receiving {}), s ++ up', []⟩ (.io (.recv s) date) =
        some ⟨.client c (.receiving {}), up', []⟩ := by
      simp [Link.transfer, hs]
    obtain ⟨n₂, hrun₂, hable₂, hon₂⟩ :=
      hable₁.dispatch hfault lev hon₁ (Or.inl rfl) hready hacc hcalled hinvoke htransfer hstep
    obtain ⟨-, hopen⟩ : Joint cfg serves c ⟨.client c (.receiving {}), up', []⟩
        (Session.handled INPUT (conn.handleInput cfg s date)) ∧ _ :=
      Joint.request hacc hread hs hall .receiving hfault
    have hrun : Continues cfg serves lev i n n₂ := hrun₁.trans hrun₂
    generalize Session.handled INPUT (conn.handleInput cfg s date) = x at hon₂ hopen
    cases hon₂ with
    | mk hlink hjoint hshows =>
      cases hjoint with
      | asking hread hall hc =>
        have hshort : up'.length < len := by
          rw [← hlen, List.length_append]
          have := List.length_pos_of_ne_nil hs
          omega
        obtain ⟨n', up'', x, hrun', hable', hon', hx⟩ :=
          ih _ hshort hable₂ ⟨hlink, .asking hread hall hc, hshows⟩ rfl
        exact ⟨n', up'', x, hrun.trans hrun', hable', hon', hx⟩
      | executing hm hk hc =>
        exact ⟨n₂, [], _, hrun, hable₂, ⟨hlink, .executing hm hk hc, hshows⟩, Or.inl ⟨_, _, rfl⟩⟩
      | replying a hk hne hall hc =>
        exact ⟨n₂, up', _, hrun, hable₂, ⟨hlink, .replying a hk hne hall hc, hshows⟩, Or.inr ⟨_, rfl⟩⟩
      | answered a hall hc => exact absurd rfl hopen
      | dropped hc => exact absurd rfl hopen

theorem Able.replied (lev : Nat → VerificationLevel) (h : Able cfg serves date n) {client : ClientConnection}
    {up down : List Char} {conn : ServerConnection}
    (hon : On cfg serves n i c ⟨.client c client, up, down⟩ (.registered OUTPUT conn))
    (hacc : c.Accepted cfg.maxReqSz)
    (hcalled : ∀ m, cfg.createMethod c.content = .ok m → Responds cfg serves date m) :
    ∃ n' down' q, ∃ a : Answer cfg serves c.content, Continues cfg serves lev i n n' ∧
      n'.links[i]? = some ⟨.client c client, up, down'⟩ ∧ q ++ down' = a.bytes ∧ a.Has q client := by
  obtain ⟨a, q, hall, hhas⟩ := hon.joint.replies
  obtain ⟨n₁, rest, hrun₁, hable₁, hon₁, hready⟩ := h.turn hfault lev hon (Or.inr rfl)
  have hinvoke : conn.invoke cfg OUTPUT (.send conn.response.length) date =
      some (conn.handleOutput conn.response.length) := by
    simp [invoke, INPUT, OUTPUT]
  have hstep : Session.step cfg (.registered OUTPUT conn) (.io (.send conn.response.length) date) =
      some (Session.handled OUTPUT (conn.handleOutput conn.response.length)) := by
    simp [Session.step, OUTPUT]
  have htransfer : Link.transfer conn.response ⟨.client c client, up, down⟩
      (.io (.send conn.response.length) date) = some ⟨.client c client, up, down ++ conn.response⟩ := by
    simp [Link.transfer]
  obtain ⟨n', hrun, -, hon'⟩ :=
    hable₁.dispatch hfault lev hon₁ (Or.inr rfl) hready hacc hcalled hinvoke htransfer hstep
  exact ⟨n', _, q, a, hrun₁.trans hrun, hon'.link, by rw [← List.append_assoc, hall], hhas⟩

end Faults

theorem Able.executed (lev : Nat → VerificationLevel) (h : Able cfg serves date n) {m : M} {conn : ServerConnection}
    (hon : On cfg serves n i c l (.executing m conn)) (hacc : c.Accepted cfg.maxReqSz)
    (hcalled : ∀ m, cfg.createMethod c.content = .ok m → Responds cfg serves date m) :
    ∃ n' conn', Continues cfg serves lev i n n' ∧ Able cfg serves date n' ∧
      On cfg serves n' i c l (.registered OUTPUT conn') := by
  induction hlen : n.server.pool.remaining using Nat.strongRecOn generalizing n with
  | _ len ih =>
    have hleft : ¬ (n.server.pool.reqQueue = [] ∧ n.server.pool.executed = []) := by
      rintro ⟨hqueue, hexecuted⟩
      cases hon.shows with
      | executing hconn hmem =>
        have hheld := (List.mem_filter.mp hmem).1
        simp [PoolExecutorFactory.held, hqueue, hexecuted] at hheld
    obtain ⟨pe, pool, horderly, hpool, hless, -, -⟩ :=
      h.pool.working.progress h.pool.stays h.threads hleft
    -- A step that is not the last one for connection `i`.
    have hgo : ∀ {e : Server.Event} {n' : Network M}, Allowed cfg serves n (.server e) →
        n.step cfg lev (.server e) = some n' → n'.server.pool = pool →
        (∀ own, e.own n.server ≠ some (i, own)) → (∀ fd s date, e.own n.server ≠ some (fd, .io (.recv s) date)) →
        ∃ n' conn', Continues cfg serves lev i n n' ∧ Able cfg serves date n' ∧
          On cfg serves n' i c l (.registered OUTPUT conn') := by
      intro e n₁ hok hstep hpool₁ hquiet hread
      have hable := h.server hok hstep fun fd own x m conn hown _ hx => by
        obtain ⟨s, date, rfl⟩ := reads_of_executing hx
        exact absurd hown (hread fd s date)
      obtain ⟨n', conn', hrun, hable', hon'⟩ :=
        ih _ (by rw [hpool₁, ← hlen]; exact hless) hable (hon.quiet h.kept (serves_of_step h.kept hstep) hquiet) rfl
      exact ⟨n', conn', (Continues.server hok hstep).trans hrun, hable', hon'⟩
    have hloop : ∀ {e : Server.Event}, e ≠ .accept → Allowed cfg serves n (.server e) →
        n.server.step cfg e = n.server.poolStep pe → e.own n.server = none →
        ∃ n' conn', Continues cfg serves lev i n n' ∧ Able cfg serves date n' ∧
          On cfg serves n' i c l (.registered OUTPUT conn') := by
      intro e he hok hstep hnone
      have hserver : n.server.step cfg e = some { n.server with pool } := by
        rw [hstep, Server.poolStep, hpool]
        rfl
      obtain ⟨n₁, hstep₁, hn₁⟩ := exists_server lev he hserver fun fd own hown => by rw [hnone] at hown; cases hown
      exact hgo hok hstep₁ (by rw [hn₁]) (fun own hown => by rw [hnone] at hown; cases hown)
        fun fd s date hown => by rw [hnone] at hown; cases hown
    cases pe with
    | lock t => exact hloop (e := .lock t) (by simp) trivial rfl rfl
    | resume t => exact hloop (e := .resume t) (by simp) trivial rfl rfl
    | finish t =>
      obtain ⟨fd, m', conn', hexecutor, hconn, hshows, hfinish⟩ := Server.exists_finish cfg h.kept.sound hpool
      obtain ⟨body, hbody, hanswer⟩ := h.bodies fd m' conn' hshows
      obtain ⟨server, hserver, hpool'⟩ := hfinish body date
      have hown : Server.Event.own n.server (.finish t body date) = some (fd, .answer body date) := by
        simp only [Server.Event.own, hexecutor, Option.map_some]
      have hlt := Server.lt_of_conn? hconn
      obtain ⟨n₁, hstep, rfl⟩ := exists_server lev (e := .finish t body date) (by simp) hserver fun fd' own heq => by
        obtain ⟨rfl, rfl⟩ := Prod.mk.inj (Option.some.inj (hown.symm.trans heq))
        exact ⟨conn', _, _, hconn, List.getElem?_eq_getElem (hlt.trans_le h.kept.accepted), rfl⟩
      have hok : Allowed cfg serves n (.server (.finish t body date)) := by
        intro x hx
        obtain rfl := Option.some.inj (hexecutor.symm.trans hx)
        exact ⟨hbody, hanswer⟩
      by_cases hfd : fd = i
      · subst hfd
        obtain ⟨hable, conn₁, l', x', -, hl', hx', hon'⟩ := h.own hon hacc hcalled hok hstep hown
        obtain rfl := Option.some.inj hl'
        obtain rfl := Option.some.inj hx'
        exact ⟨n₁, _, .server hok hstep, hable, hon'⟩
      · refine hgo hok hstep hpool' (fun own heq => ?_) fun fd' s date' heq => ?_
        · exact hfd (Prod.mk.inj (Option.some.inj (hown.symm.trans heq))).1
        · cases hown.symm.trans heq
    | _ => cases horderly

theorem Able.acceptOne (lev : Nat → VerificationLevel) (h : Able cfg serves date n) (hl : n.links[i]? = some l)
    (hge : n.server.conns.length ≤ i) : ∃ server n', n.server.step cfg .accept = some server ∧
      Continues cfg serves lev i n n' ∧ Able cfg serves date n' ∧ n' = { n with server } ∧
      server.conns.length = n.server.conns.length + 1 := by
  obtain ⟨server, hserver⟩ : ∃ server, n.server.step cfg .accept = some server := ⟨_, rfl⟩
  obtain ⟨hi, -⟩ := List.getElem?_eq_some_iff.mp hl
  have hstep : n.step cfg lev (.server .accept) = some { n with server } := by
    simp only [step, hserver, Option.bind_eq_bind, Option.bind_some]
    exact if_pos (hge.trans_lt hi)
  have hok : Allowed cfg serves n (.server .accept) := trivial
  have hlength : server.conns.length = n.server.conns.length + 1 := by
    obtain rfl := Option.some.inj hserver
    simp
  have hable := h.server hok hstep fun fd own x m conn hown => by cases hown
  exact ⟨server, _, hserver, .server hok hstep, hable, rfl, hlength⟩

theorem Able.accept (lev : Nat → VerificationLevel) (h : Able cfg serves date n) (hl : n.links[i]? = some l)
    (hge : n.server.conns.length ≤ i) (hj : Joint cfg serves c l (.registered INPUT {})) :
    ∃ n', Continues cfg serves lev i n n' ∧ Able cfg serves date n' ∧
      On cfg serves n' i c l (.registered INPUT {}) := by
  induction hlen : i - n.server.conns.length generalizing n with
  | zero =>
    obtain ⟨server, n', hserver, hrun, hable, rfl, hlength⟩ := h.acceptOne lev hl hge
    have hshows := (h.kept.sound.step hserver).opened i (by omega)
    exact ⟨_, hrun, hable, hl, hj, hshows.resolve_left (not_lt.mpr hge)⟩
  | succ k ih =>
    obtain ⟨server, n₁, -, hrun, hable, rfl, hlength⟩ := h.acceptOne lev hl hge
    obtain ⟨n', hrun', hon⟩ := ih hable hl (by simp only; omega) (by simp only; omega)
    exact ⟨n', hrun.trans hrun', hon⟩

theorem received (lev : Nat → VerificationLevel) {a : Answer cfg serves c.content} {r : PacketReader Status}
    {up down q : List Char} (hl : n.links[i]? = some ⟨.client c (.receiving r), up, down⟩)
    (hc : a.Has q (.receiving r)) (hall : q ++ down = a.bytes) :
    ∃ n' p down', Continues cfg serves lev i n n' ∧
      n'.links[i]? = some ⟨.client c (.returned (.ok p)), up, down'⟩ := by
  induction hlen : down.length using Nat.strongRecOn generalizing n r down q with
  | _ len ih =>
    have hne : down ≠ [] := by
      rintro rfl
      cases hc with
      | receiving hread =>
        have hlt := hread.lt
        rw [← Answer.bytes, ← hall] at hlt
        simp at hlt
    obtain ⟨s, down', rfl, hs, hsz⟩ : ∃ s down', s ++ down' = down ∧ s ≠ [] ∧ s.length ≤ readBufSz :=
      ⟨down.take readBufSz, down.drop readBufSz, List.take_append_drop _ _, by simp [hne, readBufSz],
        List.length_take_le _ _⟩
    have hpos := List.length_pos_of_ne_nil hs
    obtain ⟨hi, -⟩ := List.getElem?_eq_some_iff.mp hl
    -- The client reads the bytes of `s`.
    have hrecv : ∀ client, ClientConnection.handleInput (lev i) r s = client →
        Continues cfg serves lev i n { n with links := n.links.set i ⟨.client c client, up, down'⟩ } := by
      rintro client rfl
      refine (Reaches.refl n).tail (e := .link i (.recv s.length)) ⟨trivial, rfl⟩ ?_
      have hzero : s.length ≠ 0 := by omega
      simp [step, hl, Link.step, hsz, hs]
    have hall' : q ++ s ++ down' = a.bytes := by rw [← hall, List.append_assoc]
    obtain ⟨hmore, hlast⟩ := hc.read (lev i) hs hall'
    by_cases hrest : down' = []
    · obtain ⟨p, hread, -⟩ := hlast hrest
      exact ⟨_, p, down', hrecv _ hread, List.getElem?_set_self hi⟩
    · obtain ⟨r', hread, hhas⟩ := hmore hrest
      have hshort : down'.length < len := by
        rw [← hlen, List.length_append]
        omega
      have hset : ({ n with links := n.links.set i ⟨.client c (.receiving r'), up, down'⟩ } : Network M).links[i]? =
          some ⟨.client c (.receiving r'), up, down'⟩ := List.getElem?_set_self hi
      obtain ⟨n', p, down'', hrun, hl'⟩ := ih _ hshort hset hhas hall' rfl
      exact ⟨n', p, down'', (hrecv _ hread).trans hrun, hl'⟩

theorem Able.link (h : Able cfg serves date n) {lev : VerificationLevel} {serverClosed : Bool} {e : Link.Event}
    {l' : Link} (hl : n.links[i]? = some l) (hstep : l.step lev serverClosed e = some l') :
    Able cfg serves date { n with links := n.links.set i l' } where
  kept := h.kept.link hl hstep
  pool := h.pool
  threads := h.threads
  bodies := h.bodies

theorem Able.sent (lev : Nat → VerificationLevel) (h : Able cfg serves date n) {client : ClientConnection}
    {up down : List Char} (hl : n.links[i]? = some ⟨.client c client, up, down⟩) (hopen : client.isClosed = false) :
    ∃ n' r up', Continues cfg serves lev i n n' ∧ Able cfg serves date n' ∧ n'.server = n.server ∧
      n'.links[i]? = some ⟨.client c (.receiving r), up', down⟩ := by
  cases client with
  | sending outStr =>
    have hstep : Link.step (lev i) (n.serverClosed i) ⟨.client c (.sending outStr), up, down⟩ (.send outStr.length) =
        some ⟨.client c (.receiving {}), up ++ outStr, down⟩ := by
      simp [Link.step, ClientConnection.handleOutput]
    obtain ⟨hi, -⟩ := List.getElem?_eq_some_iff.mp hl
    refine ⟨_, {}, up ++ outStr, (Reaches.refl n).tail (e := .link i (.send outStr.length)) ⟨trivial, rfl⟩ ?_,
      h.link hl hstep, rfl, List.getElem?_set_self hi⟩
    simp only [step, hl, hstep, Option.bind_eq_bind, Option.bind_some]
    rfl
  | receiving r => exact ⟨n, r, up, Reaches.refl n, h, rfl, hl⟩
  | returned result => cases hopen

theorem open_of_reaches (h : Reaches (step cfg lev) (Allowed cfg serves) {} n) : n.server.pool.Open := by
  refine (h.invariant (I := fun n => Kept cfg serves n ∧ n.server.pool.Open) ?_ fun n n' e hn hok hstep => ?_).2
  · exact ⟨kept_new, ⟨fun _ hwait => absurd hwait (by simp), fun _ => by simp⟩, rfl⟩
  · refine ⟨hn.1.step hok hstep, ?_⟩
    cases e with
    | connect c =>
      obtain rfl := Option.some.inj hstep
      exact hn.2
    | link i e =>
      obtain ⟨l, -, hstep⟩ := Option.bind_eq_some_iff.mp hstep
      obtain ⟨l', -, hstep⟩ := Option.bind_eq_some_iff.mp hstep
      obtain rfl := Option.some.inj hstep
      exact hn.2
    | server e => exact (Server.keeps_step (serves_of_step hn.1 hstep).server).open hn.2

theorem able_of_reaches (h : Reaches (step cfg lev) (Allowed cfg serves) {} n) (hthreads : n.server.pool.threads ≠ [])
    (hheld : ∀ x ∈ n.server.pool.held, Responds cfg serves date x.method) : Able cfg serves date n := by
  refine ⟨kept_of_reaches h, open_of_reaches h, hthreads, fun fd m conn hx => ?_⟩
  cases hx with
  | executing hconn hmem => exact hheld _ (List.mem_filter.mp hmem).1

theorem Able.answered (lev : Nat → VerificationLevel) (h : Able cfg serves date n) {client : ClientConnection}
    {up down : List Char} (hl : n.links[i]? = some ⟨.client c client, up, down⟩) (hacc : c.Accepted cfg.maxReqSz)
    (hwaits : client.isClosed = false) (hopen : n.serverClosed i = false)
    (hfault : ∀ request fault, cfg.Fits request → cfg.createMethod request = .error fault →
      Answerable cfg.package date fault)
    (hcalled : ∀ m, cfg.createMethod c.content = .ok m → Responds cfg serves date m) :
    ∃ n' p up down, Continues cfg serves lev i n n' ∧
      n'.links[i]? = some ⟨.client c (.returned (.ok p)), up, down⟩ := by
  obtain ⟨n₁, r, up₁, hrun₁, hable₁, hserver, hl₁⟩ := h.sent lev hl hwaits
  -- Connection `i` is accepted and not closed.
  obtain ⟨n₂, x, hrun₂, hable₂, hon, hx⟩ : ∃ n₂ x, Continues cfg serves lev i n₁ n₂ ∧
      Able cfg serves date n₂ ∧ On cfg serves n₂ i c ⟨.client c (.receiving r), up₁, down⟩ x ∧ x ≠ .closed := by
    rcases hable₁.kept.stands i _ c _ hl₁ rfl hacc with ⟨x, hon⟩ | ⟨hge, hj⟩
    · refine ⟨n₁, x, Reaches.refl n₁, hable₁, hon, ?_⟩
      rintro rfl
      cases hon.shows with
      | closed hlt hconn =>
        rw [hserver] at hlt hconn
        simp [serverClosed, hlt, hconn] at hopen
    · obtain ⟨n₂, hrun₂, hable₂, hon⟩ := hable₁.accept lev hl₁ hge hj
      exact ⟨n₂, _, hrun₂, hable₂, hon, nofun⟩
  -- From the response that the server has, to the client.
  have hreply : ∀ {n₃ up down conn}, Continues cfg serves lev i n n₃ → Able cfg serves date n₃ →
      On cfg serves n₃ i c ⟨.client c (.receiving r), up, down⟩ (.registered OUTPUT conn) → ∃ n' p up down,
        Continues cfg serves lev i n n' ∧ n'.links[i]? = some ⟨.client c (.returned (.ok p)), up, down⟩ := by
    intro n₃ up down conn hrun₃ hable₃ hon₃
    obtain ⟨n₄, down', q, a, hrun₄, hl₄, hall, hhas⟩ := hable₃.replied hfault lev hon₃ hacc hcalled
    obtain ⟨n', p, down'', hrun, hl'⟩ := received lev hl₄ hhas hall
    exact ⟨n', p, up, down'', (hrun₃.trans hrun₄).trans hrun, hl'⟩
  have hexecute : ∀ {n₃ up down m conn}, Continues cfg serves lev i n n₃ → Able cfg serves date n₃ →
      On cfg serves n₃ i c ⟨.client c (.receiving r), up, down⟩ (.executing m conn) → ∃ n' p up down,
        Continues cfg serves lev i n n' ∧ n'.links[i]? = some ⟨.client c (.returned (.ok p)), up, down⟩ := by
    intro n₃ up down m conn hrun₃ hable₃ hon₃
    obtain ⟨n₄, conn', hrun₄, hable₄, hon₄⟩ := hable₃.executed lev hon₃ hacc hcalled
    exact hreply (hrun₃.trans hrun₄) hable₄ hon₄
  have hrun : Continues cfg serves lev i n n₂ := hrun₁.trans hrun₂
  cases hon with
  | mk hlink hjoint hshows =>
    cases hjoint with
    | asking hread hall hc =>
      cases hc
      obtain ⟨n₃, up', x, hrun₃, hable₃, hon₃, hx₃⟩ :=
        hable₂.asked hfault lev ⟨hlink, .asking hread hall .receiving, hshows⟩ hacc hcalled
      rcases hx₃ with ⟨m, conn, rfl⟩ | ⟨conn, rfl⟩
      · exact hexecute (hrun.trans hrun₃) hable₃ hon₃
      · exact hreply (hrun.trans hrun₃) hable₃ hon₃
    | executing hm hk hc => exact hexecute hrun hable₂ ⟨hlink, .executing hm hk hc, hshows⟩
    | replying a hk hne hall hc => exact hreply hrun hable₂ ⟨hlink, .replying a hk hne hall hc, hshows⟩
    | answered a hall hc => exact absurd rfl hx
    | dropped hc => exact absurd rfl hx

/-- **Every call can be answered.** From every state of the network, whatever has failed before, the
server and a client that waits can go on, without the others, to an answer to the client's own
request. The server has threads, and the methods that it executes can make responses. -/
theorem call_answered (h : Reaches (step cfg lev) (Allowed cfg serves) {} n) {client : ClientConnection}
    {up down : List Char} (hl : n.links[i]? = some ⟨.client c client, up, down⟩) (hacc : c.Accepted cfg.maxReqSz)
    (hwaits : client.isClosed = false) (hopen : n.serverClosed i = false) (hthreads : n.server.pool.threads ≠ [])
    (hfault : ∀ request fault, cfg.Fits request → cfg.createMethod request = .error fault →
      Answerable cfg.package date fault)
    (hheld : ∀ x ∈ n.server.pool.held, Responds cfg serves date x.method)
    (hcalled : ∀ m, cfg.createMethod c.content = .ok m → Responds cfg serves date m) :
    ∃ n' p up down, Reaches (step cfg lev) (fun n e => Allowed cfg serves n e ∧ e.within i) n n' ∧
      n'.links[i]? = some ⟨.client c (.returned (.ok p)), up, down⟩ ∧
      p.header.head.code = 200 ∧ Proper cfg serves c.content p.content := by
  obtain ⟨n', p, up', down', hrun, hl'⟩ :=
    (able_of_reaches h hthreads hheld).answered lev hl hacc hwaits hopen hfault hcalled
  have hkept := kept_of_reaches (h.trans (hrun.weaken fun _ _ hok => hok.1))
  exact ⟨n', p, up', down', hrun, hl', hkept.own hl' hacc⟩

/-- A client and a stranger are connected, and the server has a thread. -/
def helloWaits : Network (List Char) :=
  (play (step Server.echo fun _ => .strict) echoes {} [.connect (some hello), .connect none, .server .accept,
    .server .accept, .server (.addThreads 1)]).getD {}

theorem call_answered_hello : ∃ (n' : Network (List Char)) (p : Packet Status) (up down : List Char),
    Reaches (step Server.echo fun _ => .strict)
      (fun n e => Allowed Server.echo (fun request body => body = request) n e ∧ e.within 0) helloWaits n' ∧
      n'.links[0]? = some ⟨.client hello (.returned (.ok p)), up, down⟩ ∧
      p.header.head.code = 200 ∧ Proper Server.echo (fun request body => body = request) hello.content p.content := by
  have hplay : play (step Server.echo fun _ => .strict) echoes {} [.connect (some hello), .connect none,
      .server .accept, .server .accept, .server (.addThreads 1)] = some helloWaits := rfl
  have hrun := (reaches_of_play hplay).weaken fun _ _ => echoes_allowed
  have hlink : helloWaits.links[0]? = some (opened (some hello)) := rfl
  have hacc : hello.Accepted 0 := ⟨by decide, not_of_any (by decide), .of_not_space (by decide),
    .of_not_space (by decide), by decide, by simp⟩
  have hcalled : ∀ m, Server.echo.createMethod hello.content = .ok m →
      Responds Server.echo (fun request body => body = request) "now" m := fun m hm =>
    ⟨hello.content, Except.ok.inj hm, .of_not_space (by decide), .of_not_space (by decide), by decide⟩
  exact call_answered hrun hlink hacc rfl rfl nofun (fun request fault _ => nofun) nofun hcalled

end Network

end DispCalc.Iqxmlrpc
