import DispCalc.Iqxmlrpc.Packets

/-!
# One call

A client and the server's end of its connection, with the bytes that are on their way. The client
sends its request, the server has the method executed, and the client reads the response.
-/

namespace DispCalc.Iqxmlrpc

open PacketReader ServerConnection

/-! ## `Http_client_connection` -/

/-- What `do_process_session` throws. -/
inductive ClientFault where
  /-- `network_error`: a system call failed, or the connection was closed by the peer. -/
  | networkError
  | clientTimeout
  | http (e : HttpError)

/-- `do_process_session`: registered for `OUTPUT`, then for `INPUT`, then it has returned or thrown. -/
inductive ClientConnection where
  | sending (outStr : List Char)
  | receiving (preader : PacketReader Status)
  | returned (result : Except ClientFault (Packet Status))

namespace ClientConnection

/-- `handle_output`, when `send` has taken `sz` bytes. -/
def handleOutput (outStr : List Char) (sz : Nat) : ClientConnection :=
  let outStr := outStr.drop sz
  if outStr.isEmpty then .receiving {} else .sending outStr

/-- One turn of the loop of `handle_input`, when `recv` has returned the bytes of `s`. -/
def handleInput (lev : VerificationLevel) (preader : PacketReader Status) (s : List Char) : ClientConnection :=
  if s.isEmpty then .returned (.error .networkError)
  else
    match preader.readPacket (ResponseHeader.parse lev) 0 s with
    | (.ok none, preader) => .receiving preader
    | (.ok (some p), _) => .returned (.ok p)
    | (.error e, _) => .returned (.error (.http e))

/-- The socket is closed when the session has ended. -/
def isClosed : ClientConnection → Bool
  | .returned _ => true
  | _ => false

end ClientConnection

/-! ## Connections -/

/-- Who has opened a connection: a client of this library for a call, or anyone. -/
inductive Peer where
  | client (c : Call) (conn : ClientConnection)
  | stranger (closed : Bool)

def Peer.isClosed : Peer → Bool
  | .client _ conn => conn.isClosed
  | .stranger closed => closed

def Peer.call : Peer → Option Call
  | .client c _ => some c
  | .stranger _ => none

/-- A connection, outside the server: the bytes on their way to it, and back. -/
structure Link where
  peer : Peer
  up : List Char := []
  down : List Char := []

namespace Link

inductive Event where
  /-- The client's `send` takes `sz` bytes. -/
  | send (sz : Nat)
  /-- The client's `recv` returns `sz` bytes. -/
  | recv (sz : Nat)
  /-- The client's time is up, or its system call fails. -/
  | fail (timeout : Bool)
  /-- Strangers send what they like, and read what they like. -/
  | stranger (up : List Char) (closed : Bool)

/-- `lev` is the client's level, which its constructor does not set. `serverClosed` says that the
server has closed its end. -/
def step (lev : VerificationLevel) (serverClosed : Bool) (l : Link) : Event → Option Link
  | .send sz =>
    match l.peer with
    | .client c (.sending outStr) =>
      if sz ≤ outStr.length then
        some { l with
          peer := .client c (ClientConnection.handleOutput outStr sz), up := l.up ++ outStr.take sz }
      else none
    | _ => none
  | .recv sz =>
    match l.peer with
    | .client c (.receiving preader) =>
      if sz ≤ readBufSz ∧ sz ≤ l.down.length ∧ (sz = 0 → serverClosed ∧ l.down = []) then
        some { l with
          peer := .client c (ClientConnection.handleInput lev preader (l.down.take sz))
          down := l.down.drop sz }
      else none
    | _ => none
  | .fail timeout =>
    match l.peer with
    | .client c conn =>
      if conn.isClosed then none
      else some { l with
        peer := .client c (.returned (.error (if timeout then .clientTimeout else .networkError))) }
    | .stranger _ => none
  | .stranger up closed =>
    match l.peer with
    | .stranger false => some { l with peer := .stranger closed, up := l.up ++ up }
    | _ => none

/-- What the server's end does to the bytes. `response` is what it has to send. -/
def transfer (response : List Char) (l : Link) : Session.Event → Option Link
  | .io (.recv s) _ =>
    if s = [] then (if l.up = [] ∧ l.peer.isClosed then some l else none)
    else if s <+: l.up then some { l with up := l.up.drop s.length }
    else none
  | .io (.send sz) _ => some { l with down := l.down ++ response.take sz }
  | .io .fail _ => some l
  | .answer _ _ => some l

end Link

/-! ## How far a call is -/

variable {M : Type} (cfg : ServerConfig M) (serves : M → List Char → Prop)

/-- The responses that may be made to a request. `serves` says which ones a method may make. -/
def Proper (content body : List Char) : Prop :=
  match cfg.createMethod content with
  | .ok m => serves m body
  | .error fault => body = fault

/-- A response to a request, as it is sent. -/
structure Answer (content : List Char) where
  date : String
  body : List Char
  proper : Proper cfg serves content body
  answerable : Answerable cfg.package date body

variable {cfg serves} {content : List Char}

namespace Answer

def packet (a : Answer cfg serves content) : Packet Status := answerPacket cfg.package a.date a.body

def text (a : Answer cfg serves content) : List Char := answerText cfg.package a.date a.body

def bytes (a : Answer cfg serves content) : List Char := a.text ++ (crlf ++ crlf) ++ a.body

theorem bytes_ne (a : Answer cfg serves content) : a.bytes ≠ [] := by
  simp [bytes, crlf]

/-- The client has received the first bytes of the response, or has given up. -/
inductive Has (a : Answer cfg serves content) : List Char → ClientConnection → Prop where
  | receiving {q : List Char} {r : PacketReader Status}
    (h : Reading 0 a.text a.body a.packet.header q r) : Has a q (.receiving r)
  | packet : Has a a.bytes (.returned (.ok (Packet.new a.packet.header a.body)))
  | fault {q : List Char} (fault : ClientFault) : Has a q (.returned (.error fault))

end Answer

/-- The client has still to send `rest` and has received nothing, or has given up. -/
inductive Silent : List Char → ClientConnection → Prop where
  | sending {rest : List Char} (h : rest ≠ []) : Silent rest (.sending rest)
  | receiving : Silent [] (.receiving {})
  | fault {rest : List Char} (fault : ClientFault) : Silent rest (.returned (.error fault))

/-- The two ends of a call and the bytes between them. -/
inductive Joint (cfg : ServerConfig M) (serves : M → List Char → Prop) (c : Call) :
    Link → Session M → Prop where
  | asking {client : ClientConnection} {up p rest : List Char} {conn : ServerConnection}
    (hread : Reading cfg.maxReqSz c.text c.content c.packet.header p conn.preader)
    (hall : p ++ up ++ rest = c.bytes) (hc : Silent rest client) :
    Joint cfg serves c ⟨.client c client, up, []⟩ (.registered INPUT conn)
  | executing {client : ClientConnection} {m : M} {conn : ServerConnection}
    (hm : cfg.createMethod c.content = .ok m) (hk : conn.keepAlive = false) (hc : Silent [] client) :
    Joint cfg serves c ⟨.client c client, [], []⟩ (.executing m conn)
  | replying {client : ClientConnection} {up down q : List Char} {conn : ServerConnection}
    (a : Answer cfg serves c.content) (hk : conn.keepAlive = false) (hne : conn.response ≠ [])
    (hall : q ++ down ++ conn.response = a.bytes) (hc : a.Has q client) :
    Joint cfg serves c ⟨.client c client, up, down⟩ (.registered OUTPUT conn)
  | answered {client : ClientConnection} {up down q rest : List Char} (a : Answer cfg serves c.content)
    (hall : q ++ down ++ rest = a.bytes) (hc : a.Has q client) :
    Joint cfg serves c ⟨.client c client, up, down⟩ .closed
  | dropped {client : ClientConnection} {up rest : List Char} (hc : Silent rest client) :
    Joint cfg serves c ⟨.client c client, up, []⟩ .closed

/-! ## What a step keeps -/

variable {lev : VerificationLevel} {c : Call} {l l' : Link} {x x' : Session M}

theorem Silent.send {rest outStr : List Char} (h : Silent rest (.sending outStr)) (sz : Nat) :
    Silent (rest.drop sz) (ClientConnection.handleOutput outStr sz) := by
  cases h
  unfold ClientConnection.handleOutput
  simp only
  split
  · rename_i hempty
    rw [List.isEmpty_iff.mp hempty]
    exact .receiving
  · rename_i hne
    exact .sending (by simpa using hne)

theorem Answer.Has.read (lev : VerificationLevel) {a : Answer cfg serves content} {q rest : List Char}
    {preader : PacketReader Status} (hc : a.Has q (.receiving preader)) {s : List Char} (hs : s ≠ [])
    (hall : q ++ s ++ rest = a.bytes) :
    (rest ≠ [] → ∃ r', ClientConnection.handleInput lev preader s = .receiving r' ∧ a.Has (q ++ s) (.receiving r')) ∧
    (rest = [] → ∃ p, ClientConnection.handleInput lev preader s = .returned (.ok p) ∧
      a.Has (q ++ s) (.returned (.ok p))) := by
  cases hc with
  | receiving h =>
    have hsent : Sent (ResponseHeader.parse lev) 0 a.text a.body a.packet.header := a.answerable.sent
    obtain ⟨hmore, hlast⟩ := readPacket_piece hsent h hs hall
    have hempty : s.isEmpty = false := by simpa using hs
    unfold ClientConnection.handleInput
    rw [hempty]
    refine ⟨fun hrest => ?_, fun hrest => ?_⟩
    · obtain ⟨r', hread, hreading⟩ := hmore hrest
      simp only [hread, Bool.false_eq_true, if_false]
      exact ⟨r', rfl, .receiving hreading⟩
    · obtain ⟨r', hread, -⟩ := hlast hrest
      rw [hrest, List.append_nil] at hall
      simp only [hread, Bool.false_eq_true, if_false, hall]
      exact ⟨_, rfl, .packet⟩

theorem Answer.Has.recv {a : Answer cfg serves content} {q rest : List Char} {preader : PacketReader Status}
    (hc : a.Has q (.receiving preader)) {s : List Char} (hs : s ≠ []) (hall : q ++ s ++ rest = a.bytes) :
    a.Has (q ++ s) (ClientConnection.handleInput lev preader s) := by
  obtain ⟨hmore, hlast⟩ := hc.read lev hs hall
  by_cases hrest : rest = []
  · obtain ⟨p, hread, hhas⟩ := hlast hrest
    exact hread ▸ hhas
  · obtain ⟨r', hread, hhas⟩ := hmore hrest
    exact hread ▸ hhas

theorem Joint.fault {client : ClientConnection} {up down : List Char}
    (h : Joint cfg serves c ⟨.client c client, up, down⟩ x) (fault : ClientFault) :
    Joint cfg serves c ⟨.client c (.returned (.error fault)), up, down⟩ x := by
  cases h with
  | asking hread hall hc => exact .asking hread hall (.fault fault)
  | executing hm hk hc => exact .executing hm hk (.fault fault)
  | replying a hk hne hall hc => exact .replying a hk hne hall (.fault fault)
  | answered a hall hc => exact .answered a hall (.fault fault)
  | @dropped _ _ rest hc => exact .dropped (show Silent rest _ from .fault fault)

theorem Joint.send {outStr up down : List Char}
    (h : Joint cfg serves c ⟨.client c (.sending outStr), up, down⟩ x) (sz : Nat) :
    Joint cfg serves c ⟨.client c (ClientConnection.handleOutput outStr sz), up ++ outStr.take sz, down⟩ x := by
  cases h with
  | asking hread hall hc =>
    refine .asking hread ?_ (hc.send sz)
    cases hc
    rw [← hall]
    simp only [List.append_assoc, List.take_append_drop]
  | executing hm hk hc =>
    cases hc with
    | sending hne => exact absurd rfl hne
  | replying a hk hne hall hc => cases hc
  | answered a hall hc => cases hc
  | dropped hc => exact .dropped (hc.send sz)

theorem take_way {q s down down' rest all : List Char} (hdown : s ++ down' = down) (hall : q ++ down ++ rest = all) :
    q ++ s ++ (down' ++ rest) = all ∧ q ++ s ++ down' ++ rest = all := by
  rw [← hall, ← hdown]
  simp only [List.append_assoc, and_self]

theorem Joint.recv {preader : PacketReader Status} {up down down' s : List Char}
    (h : Joint cfg serves c ⟨.client c (.receiving preader), up, down⟩ x) (hdown : s ++ down' = down) (hs : s ≠ []) :
    Joint cfg serves c ⟨.client c (ClientConnection.handleInput lev preader s), up, down'⟩ x := by
  have hne : down ≠ [] := by
    rintro rfl
    exact hs (List.append_eq_nil_iff.mp hdown).1
  cases h with
  | asking hread hall hc => exact absurd rfl hne
  | executing hm hk hc => exact absurd rfl hne
  | replying a hk hresponse hall hc =>
    obtain ⟨hrest, hall'⟩ := take_way hdown hall
    exact .replying a hk hresponse hall' (hc.recv hs hrest)
  | answered a hall hc =>
    obtain ⟨hrest, hall'⟩ := take_way hdown hall
    exact .answered a hall' (hc.recv hs hrest)
  | dropped hc => exact absurd rfl hne

theorem Joint.peer (h : Joint cfg serves c l x) : ∃ client, l.peer = .client c client := by
  cases h <;> exact ⟨_, rfl⟩

/-- **The client's steps.** -/
theorem Joint.link {e : Link.Event} {serverClosed : Bool} (h : Joint cfg serves c l x)
    (hs : l.step lev serverClosed e = some l') : Joint cfg serves c l' x := by
  obtain ⟨client, hpeer⟩ := h.peer
  obtain ⟨peer, up, down⟩ := l
  obtain rfl : peer = .client c client := hpeer
  cases e with
  | send sz =>
    simp only [Link.step] at hs
    split at hs
    · rename_i c' outStr heq
      obtain ⟨rfl, rfl⟩ := Peer.client.inj heq
      split at hs
      · obtain rfl := Option.some.inj hs
        exact h.send sz
      · cases hs
    · cases hs
  | recv sz =>
    simp only [Link.step] at hs
    split at hs
    · rename_i c' preader heq
      obtain ⟨rfl, rfl⟩ := Peer.client.inj heq
      split at hs
      · rename_i hsz
        obtain ⟨-, hle, hend⟩ := hsz
        obtain rfl := Option.some.inj hs
        by_cases hzero : sz = 0
        · subst hzero
          exact h.fault .networkError
        · refine h.recv (List.take_append_drop sz down) fun hnil => hzero ?_
          have hlen := congrArg List.length hnil
          rw [List.length_take_of_le hle] at hlen
          exact hlen
      · cases hs
    · cases hs
  | fail timeout =>
    simp only [Link.step] at hs
    split at hs
    · cases hs
    · obtain rfl := Option.some.inj hs
      exact h.fault _
  | stranger up closed => cases hs

/-- The response that a connection has to send. -/
def Session.Responds (response : List Char) : Session M → Prop
  | .registered _ conn => response = conn.response
  | _ => True

/-- A method makes a response that it may make, and every response can be sent. -/
def Session.Allowed (cfg : ServerConfig M) (serves : M → List Char → Prop) : Session M → Session.Event → Prop
  | .executing m _, .answer body date => serves m body ∧ Answerable cfg.package date body
  | _, .io _ date => ∀ request fault, cfg.Fits request → cfg.createMethod request = .error fault →
    Answerable cfg.package date fault
  | _, _ => True

theorem Joint.schedule {client : ClientConnection} {up : List Char} {conn : ServerConnection}
    (hk : conn.keepAlive = false) (a : Answer cfg serves c.content) (hc : Silent [] client) :
    Joint cfg serves c ⟨.client c client, up, []⟩ (.registered OUTPUT
      (conn.scheduleResponse (responsePacket cfg.package a.date a.body))) := by
  have hresponse : (conn.scheduleResponse (responsePacket cfg.package a.date a.body)).response = a.bytes := by
    unfold scheduleResponse
    rw [hk]
    exact answer_dump cfg.package a.date a.body
  have hhas : a.Has [] client := by
    cases hc with
    | sending hne => exact absurd rfl hne
    | receiving =>
      have hnew : (inHeader 0 [] : PacketReader Status) = {} := inHeader_nil
      rw [← hnew]
      exact .receiving (.header (by simp [crlf]))
    | fault fault => exact .fault fault
  exact .replying a hk (hresponse ▸ a.bytes_ne) (by rw [hresponse]; rfl) hhas

theorem Joint.request {client : ClientConnection} {up' p s rest : List Char} {conn : ServerConnection}
    {date : String} (hacc : c.Accepted cfg.maxReqSz)
    (hread : Reading cfg.maxReqSz c.text c.content c.packet.header p conn.preader) (hs : s ≠ [])
    (hall : p ++ (s ++ up') ++ rest = c.bytes) (hc : Silent rest client)
    (hok : ∀ request fault, cfg.Fits request → cfg.createMethod request = .error fault →
      Answerable cfg.package date fault) :
    Joint cfg serves c ⟨.client c client, up', []⟩ (Session.handled INPUT (conn.handleInput cfg s date)) ∧
      Session.handled INPUT (conn.handleInput cfg s date) ≠ .closed := by
  have hsent : Sent (RequestHeader.parse cfg.verLevel) cfg.maxReqSz c.text c.content c.packet.header := hacc.sent
  have hbuilt : c.packet.Built cfg.verLevel _ false := hacc.built
  have hall' : p ++ s ++ (up' ++ rest) = c.text ++ (crlf ++ crlf) ++ c.content := by
    rw [← Call.bytes_eq, ← hall]
    simp only [List.append_assoc]
  have hempty : s.isEmpty = false := by simpa using hs
  obtain ⟨hmore, hlast⟩ := readPacket_piece hsent hread hs hall'
  unfold handleInput
  rw [hempty]
  by_cases hrest : up' ++ rest = []
  · obtain ⟨r', hpacket, -⟩ := hlast hrest
    obtain ⟨rfl, rfl⟩ := List.append_eq_nil_iff.mp hrest
    have hrequest : conn.readRequest cfg s =
        (.ok (some (Packet.new c.packet.header c.content)), { conn with preader := r', keepAlive := false }) := by
      have halive := (connKeepAlive_new c.packet.header c.content).trans hbuilt.alive
      simp only [readRequest, hpacket, halive]
    simp only [hrequest, Bool.false_eq_true, if_false]
    have hcontent : (Packet.new c.packet.header c.content).content = c.content := rfl
    rw [hcontent]
    rcases hm : cfg.createMethod c.content with fault | m
    · have hproper : Proper cfg serves c.content fault := by
        rw [Proper, hm]
      exact ⟨.schedule rfl ⟨date, fault, hproper, hok _ _ hacc.fits hm⟩ hc, nofun⟩
    · exact ⟨.executing hm rfl hc, nofun⟩
  · obtain ⟨r', hpacket, hreading⟩ := hmore hrest
    have hrequest : conn.readRequest cfg s = (.ok none, { conn with preader := r' }) := by
      simp only [readRequest, hpacket]
    simp only [hrequest, Bool.false_eq_true, if_false]
    refine ⟨.asking hreading ?_ hc, nofun⟩
    rw [← hall]
    simp only [List.append_assoc]

theorem Joint.reply {client : ClientConnection} {up down q : List Char} {conn : ServerConnection}
    (a : Answer cfg serves c.content) (hk : conn.keepAlive = false)
    (hall : q ++ down ++ conn.response = a.bytes) (hc : a.Has q client) {sz : Nat} (hsz : sz ≤ conn.response.length) :
    Joint cfg serves c ⟨.client c client, up, down ++ conn.response.take sz⟩
      (Session.handled OUTPUT (conn.handleOutput sz)) := by
  have hall' : q ++ (down ++ conn.response.take sz) ++ conn.response.drop sz = a.bytes := by
    rw [← hall]
    simp only [List.append_assoc, List.take_append_drop]
  unfold handleOutput
  split
  · rw [hk]
    exact .answered a hall' hc
  · refine .replying a hk ?_ hall' hc
    simp only [ne_eq, List.drop_eq_nil_iff]
    omega

/-- **The server's steps.** -/
theorem Joint.session {e : Session.Event} {response : List Char} (hacc : c.Accepted cfg.maxReqSz)
    (h : Joint cfg serves c l x) (hok : x.Allowed cfg serves e) (hs : Session.step cfg x e = some x')
    (hr : x.Responds response) (ht : l.transfer response e = some l') : Joint cfg serves c l' x' := by
  cases h with
  | @asking client up p rest conn hread hall hc =>
    cases e with
    | io io date =>
      cases io with
      | recv s =>
        simp only [Session.step] at hs
        split at hs
        · obtain rfl := Option.some.inj hs
          simp only [Link.transfer] at ht
          split at ht
          · rename_i hnil
            split at ht
            · obtain rfl := Option.some.inj ht
              rw [hnil]
              exact .dropped hc
            · cases ht
          · rename_i hne
            split at ht
            · rename_i hstart
              obtain rfl := Option.some.inj ht
              obtain ⟨up', rfl⟩ := hstart
              rw [List.drop_left]
              exact (Joint.request hacc hread hne hall hc hok).1
            · cases ht
        · cases hs
      | send sz => simp [Session.step, INPUT, OUTPUT] at hs
      | fail =>
        obtain rfl := Option.some.inj hs
        obtain rfl := Option.some.inj ht
        exact .dropped hc
    | answer body date => cases hs
  | @executing client m conn hm hk hc =>
    cases e with
    | io io date => cases io <;> cases hs
    | answer body date =>
      obtain ⟨hserves, hanswer⟩ := hok
      obtain rfl := Option.some.inj hs
      obtain rfl := Option.some.inj ht
      have hproper : Proper cfg serves c.content body := by
        rw [Proper, hm]
        exact hserves
      exact .schedule hk ⟨date, body, hproper, hanswer⟩ hc
  | @replying client up down q conn a hk hne hall hc =>
    cases e with
    | io io date =>
      cases io with
      | recv s => simp [Session.step, INPUT, OUTPUT] at hs
      | send sz =>
        simp only [Session.step] at hs
        split at hs
        · rename_i hsz
          obtain rfl := Option.some.inj hs
          obtain rfl := Option.some.inj ht
          obtain rfl := hr
          exact .reply a hk hall hc hsz.2
        · cases hs
      | fail =>
        obtain rfl := Option.some.inj hs
        obtain rfl := Option.some.inj ht
        exact .answered a hall hc
    | answer body date => cases hs
  | answered a hall hc => cases e <;> cases hs
  | dropped hc => cases e <;> cases hs

theorem Joint.replies {client : ClientConnection} {up down : List Char} {conn : ServerConnection}
    (h : Joint cfg serves c ⟨.client c client, up, down⟩ (.registered OUTPUT conn)) :
    ∃ (a : Answer cfg serves c.content) (q : List Char), q ++ down ++ conn.response = a.bytes ∧ a.Has q client := by
  generalize hx : Session.registered OUTPUT conn = x at h
  cases h with
  | replying a hk hne hall hc =>
    obtain ⟨-, rfl⟩ := Session.registered.inj hx
    exact ⟨a, _, hall, hc⟩
  | asking hread hall hc => exact absurd (Session.registered.inj hx).1 nofun
  | _ => cases hx

theorem Joint.own {up down : List Char} {p : Packet Status}
    (h : Joint cfg serves c ⟨.client c (.returned (.ok p)), up, down⟩ x) :
    p.header.head.code = 200 ∧ Proper cfg serves c.content p.content := by
  have hhas : ∀ {q : List Char} (a : Answer cfg serves c.content), a.Has q (.returned (.ok p)) →
      p.header.head.code = 200 ∧ Proper cfg serves c.content p.content := by
    intro q a ha
    cases ha with
    | packet =>
      refine ⟨?_, a.proper⟩
      have hhead := answer_head cfg.package a.date a.body
      unfold Packet.new Header.setContentLength Header.setOption Answer.packet
      simp only
      split <;> rw [hhead]
  cases h with
  | asking hread hall hc => cases hc
  | executing hm hk hc => cases hc
  | replying a hk hne hall hc => exact hhas a hc
  | answered a hall hc => exact hhas a hc
  | dropped hc => cases hc

end DispCalc.Iqxmlrpc
