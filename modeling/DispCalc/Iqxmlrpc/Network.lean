import DispCalc.Iqxmlrpc.Exchange
import DispCalc.Iqxmlrpc.Server

/-!
# The clients and the server

Any number of clients of the server, and of strangers, act at the same time. Every client that gets
a response gets an answer to its own request.
-/

open Runs

namespace DispCalc.Iqxmlrpc

open ServerConnection

variable {M : Type}

/-- The server, and the connections in the order in which they are opened. The last ones may not be
accepted yet. -/
structure Network (M : Type) where
  server : Server M := {}
  links : List Link := []

namespace Network

inductive Event where
  | connect (c : Option Call)
  | link (i : Nat) (e : Link.Event)
  | server (e : Server.Event)

/-- The other end of a connection that is opened. -/
def opened : Option Call → Link
  | some c => { peer := .client c (.sending c.bytes) }
  | none => { peer := .stranger false }

/-- The server has closed its end. -/
def serverClosed (n : Network M) (i : Nat) : Bool :=
  i < n.server.conns.length && (n.server.conn? i).isNone

/-- `lev i` is the level of client `i`. -/
def step (cfg : ServerConfig M) (lev : Nat → VerificationLevel) (n : Network M) : Event → Option (Network M)
  | .connect c => some { n with links := n.links ++ [opened c] }
  | .link i e => do
    let l ← n.links[i]?
    let l ← l.step (lev i) (n.serverClosed i) e
    return { n with links := n.links.set i l }
  | .server .accept => do
    let server ← n.server.step cfg .accept
    if n.server.conns.length < n.links.length then some { n with server } else none
  | .server e => do
    let server ← n.server.step cfg e
    match e.own n.server with
    | none => some { n with server }
    | some (fd, own) => do
      let conn ← n.server.conn? fd
      let l ← n.links[fd]?
      let l ← l.transfer conn.response own
      return { server, links := n.links.set fd l }

/-- The methods make responses that they may make, and every response can be sent. -/
def Allowed (cfg : ServerConfig M) (serves : M → List Char → Prop) (n : Network M) : Event → Prop
  | .server (.finish t body date) =>
    ∀ x, n.server.executor? t = some x → serves x.method body ∧ Answerable cfg.package date body
  | .server (.dispatch _ date _) =>
    ∀ request fault, cfg.Fits request → cfg.createMethod request = .error fault →
      Answerable cfg.package date fault
  | _ => True

variable {cfg : ServerConfig M} {serves : M → List Char → Prop} {lev : Nat → VerificationLevel} {n n' : Network M}

/-- Connection `i` is accepted, and its two ends are at a call. -/
structure On (cfg : ServerConfig M) (serves : M → List Char → Prop) (n : Network M) (i : Nat) (c : Call)
    (l : Link) (x : Session M) : Prop where
  link : n.links[i]? = some l
  joint : Joint cfg serves c l x
  shows : n.server.Shows i x

/-- How the call of connection `i` stands. -/
def Stands (cfg : ServerConfig M) (serves : M → List Char → Prop) (n : Network M) (i : Nat) : Prop :=
  ∀ l c client, n.links[i]? = some l → l.peer = .client c client → c.Accepted cfg.maxReqSz →
    (∃ x, On cfg serves n i c l x) ∨
      n.server.conns.length ≤ i ∧ Joint cfg serves c l (.registered INPUT {})

structure Kept (cfg : ServerConfig M) (serves : M → List Char → Prop) (n : Network M) : Prop where
  sound : n.server.Sound
  accepted : n.server.conns.length ≤ n.links.length
  stands : ∀ i, Stands cfg serves n i

theorem bytes_ne (c : Call) : c.bytes ≠ [] := by
  simp [Call.bytes_eq, crlf]

theorem get_set {ls : List Link} {j i : Nat} {l l' : Link} (h : (ls.set j l')[i]? = some l) :
    i = j ∧ l = l' ∨ i ≠ j ∧ ls[i]? = some l := by
  by_cases hij : i = j
  · subst hij
    rw [List.getElem?_set_self'] at h
    obtain ⟨l₀, -, h⟩ := Option.map_eq_some_iff.mp h
    exact Or.inl ⟨rfl, h.symm⟩
  · rw [List.getElem?_set_ne (Ne.symm hij)] at h
    exact Or.inr ⟨hij, h⟩

theorem client_of_call {peer : Peer} {c : Call} (h : peer.call = some c) : ∃ client, peer = .client c client := by
  cases peer with
  | client c' client =>
    obtain rfl := Option.some.inj h
    exact ⟨client, rfl⟩
  | stranger closed => cases h

theorem joint_opened (c : Call) : Joint cfg serves c (opened (some c)) (.registered INPUT {}) := by
  have hnew : (PacketReader.inHeader cfg.maxReqSz [] : PacketReader String) = {} := PacketReader.inHeader_nil
  have hread : PacketReader.Reading cfg.maxReqSz c.text c.content c.packet.header [] {} := by
    rw [← hnew]
    exact .header (by simp [crlf])
  exact .asking hread rfl (.sending (bytes_ne c))

theorem Kept.connect (hn : Kept cfg serves n) (c : Option Call) :
    Kept cfg serves { n with links := n.links ++ [opened c] } where
  sound := hn.sound
  accepted := hn.accepted.trans (by simp)
  stands i l c' client hl hpeer hacc := by
    rcases Nat.lt_trichotomy i n.links.length with hlt | rfl | hgt
    · simp only [List.getElem?_append_left hlt] at hl
      refine (hn.stands i l c' client hl hpeer hacc).imp_left fun ⟨x, hx⟩ => ⟨x, ?_, hx.joint, hx.shows⟩
      exact (List.getElem?_append_left hlt).trans hl
    · simp only [List.getElem?_concat_length, Option.some.injEq] at hl
      subst hl
      cases c with
      | none => cases hpeer
      | some c =>
        obtain ⟨rfl, -⟩ := Peer.client.inj hpeer
        exact Or.inr ⟨hn.accepted, joint_opened c⟩
    · rw [List.getElem?_eq_none (by simpa using Nat.succ_le_of_lt hgt)] at hl
      cases hl

theorem call_step {lev : VerificationLevel} {serverClosed : Bool} {l l' : Link} {e : Link.Event}
    (h : l.step lev serverClosed e = some l') : l'.peer.call = l.peer.call := by
  cases e with
  | send sz =>
    simp only [Link.step] at h
    split at h
    · rename_i hpeer
      split at h
      · obtain rfl := Option.some.inj h
        rw [hpeer]
        rfl
      · cases h
    · cases h
  | recv sz =>
    simp only [Link.step] at h
    split at h
    · rename_i hpeer
      split at h
      · obtain rfl := Option.some.inj h
        rw [hpeer]
        rfl
      · cases h
    · cases h
  | fail timeout =>
    simp only [Link.step] at h
    split at h
    · rename_i hpeer
      split at h
      · cases h
      · obtain rfl := Option.some.inj h
        rw [hpeer]
        rfl
    · cases h
  | stranger up closed =>
    simp only [Link.step] at h
    split at h
    · rename_i hpeer
      obtain rfl := Option.some.inj h
      rw [hpeer]
      rfl
    · cases h

theorem Kept.link (hn : Kept cfg serves n) {j : Nat} {lev : VerificationLevel} {serverClosed : Bool} {l l' : Link}
    {e : Link.Event} (hj : n.links[j]? = some l) (h : l.step lev serverClosed e = some l') :
    Kept cfg serves { n with links := n.links.set j l' } where
  sound := hn.sound
  accepted := by simpa using hn.accepted
  stands i l₁ c client hl hpeer hacc := by
    rcases get_set hl with ⟨rfl, rfl⟩ | ⟨hne, hl'⟩
    · obtain ⟨client', hpeer'⟩ := client_of_call ((call_step h).symm.trans (by rw [hpeer]; rfl))
      exact (hn.stands i l c client' hj hpeer' hacc).imp (fun ⟨x, hx⟩ => ⟨x, hl, hx.joint.link h, hx.shows⟩)
        fun ⟨hge, hx⟩ => ⟨hge, hx.link h⟩
    · exact (hn.stands i l₁ c client hl' hpeer hacc).imp_left fun ⟨x, hx⟩ => ⟨x, hl, hx.joint, hx.shows⟩

theorem transfer_peer {response : List Char} {l l' : Link} {e : Session.Event}
    (h : l.transfer response e = some l') : l'.peer = l.peer := by
  cases e with
  | io io date =>
    cases io with
    | recv s =>
      simp only [Link.transfer] at h
      split at h
      · split at h
        · rw [← Option.some.inj h]
        · cases h
      · split at h
        · rw [← Option.some.inj h]
        · cases h
    | send sz => rw [← Option.some.inj h]
    | fail => rw [← Option.some.inj h]
  | answer body date => rw [← Option.some.inj h]

/-- What a step of the server is for the connections and their bytes. -/
structure Serves (cfg : ServerConfig M) (n n' : Network M) (e : Server.Event) : Prop where
  server : n.server.step cfg e = some n'.server
  accepted : n'.server.conns.length ≤ n'.links.length
  /-- The bytes of the connection that the event is about. -/
  own : ∀ fd own, e.own n.server = some (fd, own) → ∃ conn l l', n.server.conn? fd = some conn ∧
    n.links[fd]? = some l ∧ l.transfer conn.response own = some l' ∧ n'.links = n.links.set fd l'
  others : e.own n.server = none → n'.links = n.links

theorem step_server {e : Server.Event} (he : e ≠ .accept) : n.step cfg lev (.server e) = (do
    let server ← n.server.step cfg e
    match e.own n.server with
    | none => some { n with server }
    | some (fd, own) => do
      let conn ← n.server.conn? fd
      let l ← n.links[fd]?
      let l ← l.transfer conn.response own
      return { server, links := n.links.set fd l }) := by
  cases e <;> first | exact absurd rfl he | rfl

theorem serves_of_step (hn : Kept cfg serves n) {e : Server.Event} (h : n.step cfg lev (.server e) = some n') :
    Serves cfg n n' e := by
  by_cases he : e = .accept
  · subst he
    rw [step] at h
    obtain ⟨server, hserver, h⟩ := Option.bind_eq_some_iff.mp h
    split at h
    · rename_i hlt
      obtain rfl := Option.some.inj h
      obtain rfl := Option.some.inj hserver
      exact ⟨rfl, by simpa using Nat.succ_le_of_lt hlt, nofun, fun _ => rfl⟩
    · cases h
  · rw [step_server he] at h
    obtain ⟨server, hserver, h⟩ := Option.bind_eq_some_iff.mp h
    have hlength := (hn.sound.step hserver).length he
    rcases hown : e.own n.server with _ | ⟨fd, own⟩
    · rw [hown] at h
      obtain rfl := Option.some.inj h
      exact ⟨hserver, hlength ▸ hn.accepted, fun fd own heq => (by rw [hown] at heq; cases heq), fun _ => rfl⟩
    · rw [hown] at h
      obtain ⟨conn, hconn, h⟩ := Option.bind_eq_some_iff.mp h
      obtain ⟨l, hl, h⟩ := Option.bind_eq_some_iff.mp h
      obtain ⟨l', hl', h⟩ := Option.bind_eq_some_iff.mp h
      obtain rfl := Option.some.inj h
      refine ⟨hserver, ?_, fun fd' own' heq => ?_, fun heq => ?_⟩
      · simpa [hlength] using hn.accepted
      · obtain ⟨rfl, rfl⟩ := Prod.mk.inj (Option.some.inj (hown.symm.trans heq))
        exact ⟨conn, l, l', hconn, hl, hl', rfl⟩
      · rw [hown] at heq
        cases heq

theorem allowed_own (hn : Kept cfg serves n) {e : Server.Event} (hok : Allowed cfg serves n (.server e))
    {fd : Nat} {own : Session.Event} (hown : e.own n.server = some (fd, own)) {x : Session M}
    (hx : n.server.Shows fd x) : x.Allowed cfg serves own := by
  cases e with
  | dispatch io date notified =>
    simp only [Server.Event.own] at hown
    split at hown
    · split at hown
      · obtain ⟨-, rfl⟩ := Prod.mk.inj (Option.some.inj hown)
        cases x <;> exact hok
      · cases hown
    · cases hown
  | finish t body date =>
    obtain ⟨⟨fd', m⟩, hexecutor, heq⟩ := Option.map_eq_some_iff.mp hown
    obtain ⟨rfl, rfl⟩ := Prod.mk.inj heq
    have hmem := Server.mem_executors hexecutor
    obtain ⟨hnone, hone⟩ := (hn.sound.owned fd').busy hmem
    cases hx with
    | registered hconn hmask => trivial
    | executing hconn hmem' =>
      rw [hone, List.mem_singleton] at hmem'
      obtain ⟨-, rfl⟩ := PoolExecutor.mk.inj hmem'
      exact hok _ hexecutor
    | closed hlt hconn => trivial
  | _ => cases hown

theorem responds_of_shows {s : Server M} {fd : Nat} {conn : ServerConnection} {x : Session M}
    (hconn : s.conn? fd = some conn) (hx : s.Shows fd x) : x.Responds conn.response := by
  cases hx with
  | registered hconn' hmask =>
    obtain rfl := Option.some.inj (hconn.symm.trans hconn')
    rfl
  | executing hconn' hmem => trivial
  | closed hlt hconn' => trivial

theorem Serves.other {e : Server.Event} (h : Serves cfg n n' e) {i : Nat}
    (hi : ∀ own, e.own n.server ≠ some (i, own)) :
    n'.links[i]? = n.links[i]? ∧ e.at n.server i = none := by
  unfold Server.Event.at
  rcases hown : e.own n.server with _ | ⟨fd, own⟩
  · exact ⟨by rw [h.others hown], rfl⟩
  · have hne : fd ≠ i := by
      rintro rfl
      exact hi own hown
    obtain ⟨conn, l, l', -, -, -, hlinks⟩ := h.own fd own hown
    exact ⟨by rw [hlinks, List.getElem?_set_ne hne], by simp [hne]⟩

section Server

variable {e : Server.Event} {i : Nat} {c : Call} {l : Link} {x : Session M}

theorem On.quiet (h : On cfg serves n i c l x) (hn : Kept cfg serves n) (hs : Serves cfg n n' e)
    (hi : ∀ own, e.own n.server ≠ some (i, own)) : On cfg serves n' i c l x := by
  obtain ⟨hlinks, hat⟩ := hs.other hi
  obtain ⟨x', hx', hfollow⟩ := (hn.sound.step hs.server).follows i x h.shows
  rw [hat] at hfollow
  obtain rfl := hfollow
  exact ⟨hlinks.trans h.link, h.joint, hx'⟩

theorem On.own (h : On cfg serves n i c l x) (hn : Kept cfg serves n) (hs : Serves cfg n n' e)
    (hok : Allowed cfg serves n (.server e)) (hacc : c.Accepted cfg.maxReqSz) {own : Session.Event}
    (hown : e.own n.server = some (i, own)) :
    ∃ conn l' x', n.server.conn? i = some conn ∧ l.transfer conn.response own = some l' ∧
      Session.step cfg x own = some x' ∧ On cfg serves n' i c l' x' := by
  obtain ⟨conn, l₀, l', hconn, hl₀, htransfer, hlinks⟩ := hs.own i own hown
  obtain rfl := Option.some.inj (hl₀.symm.trans h.link)
  obtain ⟨x', hx', hfollow⟩ := (hn.sound.step hs.server).follows i x h.shows
  have hat : e.at n.server i = some own := by simp [Server.Event.at, hown]
  rw [hat] at hfollow
  have hjoint := h.joint.session hacc (allowed_own hn hok hown h.shows) hfollow
    (responds_of_shows hconn h.shows) htransfer
  obtain ⟨hlt, -⟩ := List.getElem?_eq_some_iff.mp hl₀
  exact ⟨conn, l', x', hconn, htransfer, hfollow, by rw [hlinks, List.getElem?_set_self hlt], hjoint, hx'⟩

theorem Kept.server (hn : Kept cfg serves n) (hok : Allowed cfg serves n (.server e))
    (h : n.step cfg lev (.server e) = some n') : Kept cfg serves n' := by
  have hserves := serves_of_step hn h
  obtain ⟨hsound, -, hopened, -⟩ := hn.sound.step hserves.server
  refine ⟨hsound, hserves.accepted, fun i l c client hl hpeer hacc => ?_⟩
  by_cases hi : ∃ own, e.own n.server = some (i, own)
  · obtain ⟨own, hown⟩ := hi
    obtain ⟨conn, l₀, l₁, hconn, hl₀, htransfer, hlinks⟩ := hserves.own i own hown
    obtain rfl : l₁ = l := by
      rw [hlinks] at hl
      rcases get_set hl with ⟨-, rfl⟩ | ⟨hne, -⟩
      · rfl
      · exact absurd rfl hne
    rcases hn.stands i l₀ c client hl₀ (by rw [← transfer_peer htransfer, hpeer]) hacc with ⟨x, hx⟩ | ⟨hge, -⟩
    · obtain ⟨conn', l', x', -, -, -, hx'⟩ := hx.own hn hserves hok hacc hown
      obtain rfl := Option.some.inj (hl.symm.trans hx'.link)
      exact Or.inl ⟨x', hx'⟩
    · exact absurd (Server.lt_of_conn? hconn) (not_lt.mpr hge)
  · have hquiet : ∀ own, e.own n.server ≠ some (i, own) := fun own hown => hi ⟨own, hown⟩
    rcases hn.stands i l c client ((hserves.other hquiet).1 ▸ hl) hpeer hacc with ⟨x, hx⟩ | ⟨hge, hx⟩
    · exact Or.inl ⟨x, hx.quiet hn hserves hquiet⟩
    · by_cases hlt : i < n'.server.conns.length
      · exact Or.inl ⟨_, hl, hx, (hopened i hlt).resolve_left (not_lt.mpr hge)⟩
      · exact Or.inr ⟨not_lt.mp hlt, hx⟩

end Server

theorem Kept.step (hn : Kept cfg serves n) {e : Event} (hok : Allowed cfg serves n e)
    (h : n.step cfg lev e = some n') : Kept cfg serves n' := by
  cases e with
  | connect c =>
    obtain rfl := Option.some.inj h
    exact hn.connect c
  | link i e =>
    rw [Network.step] at h
    obtain ⟨l, hl, h⟩ := Option.bind_eq_some_iff.mp h
    obtain ⟨l', hl', h⟩ := Option.bind_eq_some_iff.mp h
    obtain rfl := Option.some.inj h
    exact hn.link hl hl'
  | server e => exact hn.server hok h

theorem Kept.call (hn : Kept cfg serves n) {e : Event} (h : n.step cfg lev e = some n') {i : Nat} {l : Link}
    (hl : n.links[i]? = some l) : ∃ l', n'.links[i]? = some l' ∧ l'.peer.call = l.peer.call := by
  obtain ⟨hi, -⟩ := List.getElem?_eq_some_iff.mp hl
  cases e with
  | connect c =>
    obtain rfl := Option.some.inj h
    exact ⟨l, (List.getElem?_append_left hi).trans hl, rfl⟩
  | link j e =>
    rw [Network.step] at h
    obtain ⟨l₀, hl₀, h⟩ := Option.bind_eq_some_iff.mp h
    obtain ⟨l₁, hl₁, h⟩ := Option.bind_eq_some_iff.mp h
    obtain rfl := Option.some.inj h
    by_cases hij : j = i
    · subst hij
      obtain rfl := Option.some.inj (hl₀.symm.trans hl)
      exact ⟨l₁, List.getElem?_set_self hi, call_step hl₁⟩
    · exact ⟨l, (List.getElem?_set_ne hij).trans hl, rfl⟩
  | server e =>
    have hserves := serves_of_step hn h
    rcases hown : e.own n.server with _ | ⟨fd, own⟩
    · exact ⟨l, by rw [hserves.others hown, hl], rfl⟩
    · obtain ⟨conn, l₀, l₁, -, hl₀, htransfer, hlinks⟩ := hserves.own fd own hown
      by_cases hij : fd = i
      · subst hij
        obtain rfl := Option.some.inj (hl₀.symm.trans hl)
        exact ⟨l₁, by rw [hlinks, List.getElem?_set_self hi], by rw [transfer_peer htransfer]⟩
      · exact ⟨l, by rw [hlinks, List.getElem?_set_ne hij, hl], rfl⟩

theorem kept_new : Kept cfg serves {} := ⟨Server.sound_new, le_rfl, fun i l c client hl => by simp at hl⟩

theorem kept_of_reaches (h : Reaches (Network.step cfg lev) (Allowed cfg serves) {} n) : Kept cfg serves n :=
  h.invariant kept_new fun _ _ _ hn hok hstep => hn.step hok hstep

theorem Kept.own (hn : Kept cfg serves n) {i : Nat} {c : Call} {p : Packet Status} {up down : List Char}
    (hl : n.links[i]? = some ⟨.client c (.returned (.ok p)), up, down⟩) (hacc : c.Accepted cfg.maxReqSz) :
    p.header.head.code = 200 ∧ Proper cfg serves c.content p.content := by
  rcases hn.stands i _ c _ hl rfl hacc with ⟨x, hx⟩ | ⟨-, hx⟩
  · exact hx.joint.own
  · exact hx.own

/-- **Every client gets an answer to its own request.** Any number of clients and strangers use the
server at the same time, and their bytes arrive in any pieces; a client whose call returns a
response has one that was made to its request, whatever the others do and whatever fails. -/
theorem response_own (h : Reaches (Network.step cfg lev) (Allowed cfg serves) {} n) {i : Nat} {c : Call}
    {p : Packet Status} {up down : List Char} (hl : n.links[i]? = some ⟨.client c (.returned (.ok p)), up, down⟩)
    (hacc : c.Accepted cfg.maxReqSz) : p.header.head.code = 200 ∧ Proper cfg serves c.content p.content :=
  (kept_of_reaches h).own hl hacc

def hello : Call := { agent := "p", uri := "/RPC", vhost := "localhost", port := 3344, content := "hello".toList }

/-- A call, from its connection to its response. A stranger is connected at the same time. -/
def helloRun : List Event :=
  let response := (answerPacket "p" "now" hello.content).dump ResponseHeader.dump
  [.connect (some hello), .connect none, .server .accept, .server .accept, .server (.addThreads 1),
    .link 0 (.send hello.bytes.length), .server (.poll fun _ => some INPUT),
    .server (.dispatch (.recv hello.bytes) "now" none), .server (.lock 0),
    .server (.finish 0 hello.content "now"), .server (.dispatch .fail "now" none),
    .server (.poll fun _ => some OUTPUT), .server (.dispatch (.send response.length) "now" none),
    .link 0 (.recv response.length)]

/-- Each method answers its request. -/
def echoes (n : Network (List Char)) : Event → Bool
  | .server (.finish t body date) =>
    (n.server.executor? t).all fun x => body == x.method && body.length == 5 && date == "now"
  | _ => true

theorem echoes_allowed {n : Network (List Char)} {e : Event} (h : echoes n e = true) :
    Allowed Server.echo (fun request body => body = request) n e := by
  rcases e with c | ⟨i, e⟩ | e
  · trivial
  · trivial
  · cases e with
    | finish t body date =>
      intro x hx
      simp only [echoes, hx, Option.all_some, Bool.and_eq_true, beq_iff_eq] at h
      obtain ⟨⟨hbody, hlen⟩, rfl⟩ := h
      exact ⟨hbody, .of_not_space (by decide), .of_not_space (by decide), by rw [hlen]; decide⟩
    | dispatch io date notified => exact fun request fault _ => nofun
    | _ => trivial

def returned (n : Network (List Char)) : Option (Call × Packet Status) :=
  match (n.links[0]? : Option Link) with
  | some (Link.mk (.client c (.returned (.ok p))) _ _) => some (c, p)
  | _ => none

theorem response_own_hello : ∃ (n : Network (List Char)) (p : Packet Status) (up down : List Char),
    n.links[0]? = some ⟨.client hello (.returned (.ok p)), up, down⟩ ∧
      p.header.head.code = 200 ∧ Proper Server.echo (fun request body => body = request) hello.content p.content := by
  have hrun : ((play (Network.step Server.echo fun _ => .strict) echoes {} helloRun).bind returned).map
      (fun r => r.1) = some hello := by decide +kernel
  obtain ⟨⟨c, p⟩, hreturned, hc⟩ := Option.map_eq_some_iff.mp hrun
  obtain rfl : c = hello := hc
  obtain ⟨n, hplay, hreturned⟩ := Option.bind_eq_some_iff.mp hreturned
  unfold returned at hreturned
  split at hreturned
  · rename_i c p' up down hl
    obtain ⟨rfl, rfl⟩ := Prod.mk.inj (Option.some.inj hreturned)
    have hacc : hello.Accepted 0 := ⟨by decide, not_of_any (by decide), .of_not_space (by decide),
      .of_not_space (by decide), by decide, by simp⟩
    exact ⟨n, _, up, down, hl,
      response_own ((reaches_of_play hplay).weaken fun _ _ => echoes_allowed) hl hacc⟩
  · cases hreturned

end Network

end DispCalc.Iqxmlrpc
