import DispCalc.Iqxmlrpc.PacketReader
import DispCalc.Iqxmlrpc.Reactor

/-!
# `Http_server_connection`

What the server does on one connection: it reads a request, has a method executed, and sends the
response.
-/

open SortedMap

namespace DispCalc.Iqxmlrpc

/-- What the server is set up with. -/
structure ServerConfig (M : Type) where
  verLevel : VerificationLevel := .weak
  maxReqSz : Nat := 0
  /-- `PACKAGE " " VERSION`. -/
  package : String
  /-- `parse_request` and `create_method`: the method with its parameters, or the document of the
  response to what they throw. -/
  createMethod : List Char → Except (List Char) M

/-- The request is below the limit, if there is one. -/
def ServerConfig.Fits {M : Type} (cfg : ServerConfig M) (request : List Char) : Prop :=
  cfg.maxReqSz ≠ 0 → request.length < cfg.maxReqSz

/-- `Http_server_connection`. The members that never change are left out. -/
structure ServerConnection where
  preader : PacketReader String := {}
  keepAlive : Bool := false
  response : List Char := []

/-- `Packet(new Response_header(), content)`. -/
def responsePacket (package date : String) (content : List Char) : Packet Status :=
  Packet.new (ResponseHeader.new package date 200 "OK") content

/-- The packet that an `Error_response` is. -/
def errorPacket (package date phrase : String) (code : Int) (options : Options) : Packet Status :=
  let p := Packet.new (ResponseHeader.new package date code phrase) []
  { p with header := options.foldl (fun h o => h.setOption o.1 o.2) p.header }

/-- What the handler of an event leaves to the reactor and to the server. -/
inductive Handled (M : Type) where
  | again
  /-- `INPUT` is unregistered and an executor created. -/
  | execute (m : M)
  /-- `OUTPUT` is registered, after `INPUT` was unregistered or not. -/
  | respond (unregistered : Bool)
  /-- `OUTPUT` is unregistered and `INPUT` registered. -/
  | next
  | terminate

namespace ServerConnection

variable {M : Type}

/-- `read_request`. A malformed packet is a bad request. -/
def readRequest (cfg : ServerConfig M) (conn : ServerConnection) (s : List Char) :
    Except HttpError (Option (Packet String)) × ServerConnection :=
  let (result, preader) := conn.preader.readPacket (RequestHeader.parse cfg.verLevel) cfg.maxReqSz s
  let conn := { conn with preader }
  let (result, conn) : Except HttpError (Option (Packet String)) × ServerConnection :=
    match result with
    | .ok (some r) =>
      match r.header.connKeepAlive with
      | .ok keepAlive => (.ok (some r), { conn with keepAlive })
      | .error e => (.error e, conn)
    | result => (result, conn)
  match result with
  | .error (.malformedPacket _) => (.error .badRequest, conn)
  | result => (result, conn)

def scheduleResponse (conn : ServerConnection) (pkt : Packet Status) : ServerConnection :=
  { conn with response := (pkt.setKeepAlive conn.keepAlive).dump ResponseHeader.dump }

/-- `handle_input`, when `recv` has returned the bytes of `s`. The time is `date`. -/
def handleInput (cfg : ServerConfig M) (conn : ServerConnection) (s : List Char) (date : String) :
    Handled M × ServerConnection :=
  if s.isEmpty then (.terminate, conn)
  else
    match conn.readRequest cfg s with
    | (.ok none, conn) => (.again, conn)
    | (.ok (some packet), conn) =>
      match cfg.createMethod packet.content with
      | .ok m => (.execute m, conn)
      | .error content => (.respond true, conn.scheduleResponse (responsePacket cfg.package date content))
    | (.error (.errorResponse phrase code options), conn) =>
      -- The connection is closed after the response.
      (.respond false,
        { conn with keepAlive := false }.scheduleResponse (errorPacket cfg.package date phrase code options))
    | (.error (.malformedPacket _), conn) => (.terminate, conn)

/-- `handle_output`, when `send` has taken `sz` bytes. -/
def handleOutput (conn : ServerConnection) (sz : Nat) : Handled M × ServerConnection :=
  if sz = conn.response.length then (if conn.keepAlive then .next else .terminate, conn)
  else (.again, { conn with response := conn.response.drop sz })

/-- What a system call on the socket does: `recv` returns bytes, `send` takes some, or it fails. -/
inductive Io where
  | recv (s : List Char)
  | send (sz : Nat)
  | fail

def readBufSz : Nat := 65000

/-- `invoke_servers_handler`: input comes first, and an exception closes the connection. -/
def invoke (cfg : ServerConfig M) (conn : ServerConnection) (revents : Nat) (io : Io) (date : String) :
    Option (Handled M × ServerConnection) :=
  if revents &&& INPUT ≠ 0 then
    match io with
    | .recv s => if s.length ≤ readBufSz then some (conn.handleInput cfg s date) else none
    | .send _ => none
    | .fail => some (.terminate, conn)
  else if revents &&& OUTPUT ≠ 0 then
    match io with
    | .recv _ => none
    | .send sz => if sz ≤ conn.response.length then some (conn.handleOutput sz) else none
    | .fail => some (.terminate, conn)
  else some (.again, conn)

/-- `Server::schedule_response`. -/
def answer (cfg : ServerConfig M) (conn : ServerConnection) (content : List Char) (date : String) :
    ServerConnection :=
  conn.scheduleResponse (responsePacket cfg.package date content)

end ServerConnection

/-! ## The events of one connection -/

/-- How a connection stands: registered with a mask, executing a method, or closed. -/
inductive Session (M : Type) where
  | registered (mask : Nat) (conn : ServerConnection)
  | executing (m : M) (conn : ServerConnection)
  | closed

namespace Session

open ServerConnection

variable {M : Type}

inductive Event where
  | io (io : ServerConnection.Io) (date : String)
  | answer (content : List Char) (date : String)

/-- What becomes of a registered connection. Every `unregister_handler` takes it off the reactor,
whatever it is registered for besides. -/
def handled (mask : Nat) : Handled M × ServerConnection → Session M
  | (.again, conn) => .registered mask conn
  | (.execute m, conn) => .executing m conn
  | (.respond true, conn) => .registered OUTPUT conn
  | (.respond false, conn) => .registered (mask ||| OUTPUT) conn
  | (.next, conn) => .registered INPUT conn
  | (.terminate, _) => .closed

/-- An event finds the connection polled for it. -/
def step (cfg : ServerConfig M) : Session M → Event → Option (Session M)
  | .registered mask conn, .io (.recv s) date =>
    if mask &&& INPUT ≠ 0 ∧ s.length ≤ readBufSz then some (handled mask (conn.handleInput cfg s date)) else none
  | .registered mask conn, .io (.send sz) _ =>
    if mask &&& OUTPUT ≠ 0 ∧ sz ≤ conn.response.length then some (handled mask (conn.handleOutput sz)) else none
  | .registered _ _, .io .fail _ => some .closed
  | .executing _ conn, .answer content date => some (.registered OUTPUT (conn.answer cfg content date))
  | _, _ => none

end Session

end DispCalc.Iqxmlrpc
