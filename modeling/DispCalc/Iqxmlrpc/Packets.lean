import DispCalc.Iqxmlrpc.ServerConnection

/-!
# The packets of the client and of the server

The packets that the two sides build are read as they were built.
-/

open SortedMap Splitting

namespace DispCalc.Iqxmlrpc

open DispCalc.Parser (isSpace)
open PacketReader

/-! ## Options -/

/-- A value of an option that is parsed as it was written. -/
structure CleanValue (value : String) : Prop where
  line : ∀ c ∈ value.toList, isCrlf c = false
  trimmed : trim value.toList = value.toList

/-- The names of options whose values no validator looks at. -/
def freeNames : List String := ["host", "user-agent", "date", "server"]

variable {lev : VerificationLevel} {ι : Type}

/-- The names of the library's options are in small letters and hyphens. -/
def nameChars : List Char := "abcdefghijklmnopqrstuvwxyz-".toList

theorem nameChar {c : Char} (h : c ∈ nameChars) : isSpace c = false ∧ c ≠ ':' ∧ c.toLower = c := by
  have hall : nameChars.all (fun c => !isSpace c && c != ':' && c.toLower == c) = true := by decide
  simpa [and_assoc] using List.all_eq_true.mp hall c h

theorem trim_of_not_space {s : List Char} (h : ∀ c ∈ s, isSpace c = false) : trim s = s := by
  have hdrop : s.dropWhile isSpace = s := by
    cases s with
    | nil => rfl
    | cons c s => rw [List.dropWhile_cons_of_neg (by simp [h c List.mem_cons_self])]
  rw [trim, hdrop, List.rdropWhile_eq_self_iff]
  exact fun hne => by simp [h _ (List.getLast_mem hne)]

theorem clean_of_name {name value : String} (hname : name.toList.all (· ∈ nameChars) = true)
    (hline : ∀ c ∈ value.toList, isCrlf c = false) (htrim : trim value.toList = value.toList)
    (hvalid : validate lev name value = .ok ()) : Clean lev (name, value) := by
  have hchar : ∀ c ∈ name.toList, isSpace c = false ∧ c ≠ ':' ∧ c.toLower = c := fun c hc =>
    nameChar (of_decide_eq_true (List.all_eq_true.mp hname c hc))
  refine ⟨fun c hc => not_crlf (hchar c hc).1, fun hc => (hchar ':' hc).2.1 rfl, ?_,
    trim_of_not_space fun c hc => (hchar c hc).1, hline, htrim, hvalid⟩
  exact (List.map_congr_left fun c hc => (hchar c hc).2.2).trans (List.map_id _)

theorem CleanValue.of_not_space {value : String} (h : value.toList.any isSpace = false) : CleanValue value :=
  ⟨fun c hc => not_crlf (not_of_any h c hc), trim_of_not_space (not_of_any h)⟩

theorem CleanValue.clean {name value : String} (h : CleanValue value) (hname : name ∈ freeNames) :
    Clean lev (name, value) := by
  have hnames : ∀ name ∈ freeNames, name.toList.all (· ∈ nameChars) = true ∧
      name ≠ "content-length" ∧ name ≠ "content-type" ∧ name ≠ "connection" := by decide
  obtain ⟨hchars, hlength, htype, hconn⟩ := hnames name hname
  refine clean_of_name hchars h.line h.trimmed ?_
  simp only [validate, if_neg hlength, if_neg htype, if_neg hconn]

theorem not_space_toString_nat (n : Nat) : ∀ c ∈ (toString n).toList, isSpace c = false :=
  not_space_toString (Int.ofNat n)

theorem readUnsigned_toString {n : Nat} (h : n < 2 ^ 32) : readUnsigned (toString n) = some n := by
  have hdigits : (toString n).toList = Nat.toDigits 10 n := toList_toString_ofNat n
  have hvalue : digitsValue (Nat.toDigits 10 n) = n := by
    rw [digitsValue, Nat.ofDigitChars_ten_toDigits]
  rw [readUnsigned, hdigits, if_pos ⟨isDigits_toDigits n, by rwa [hvalue]⟩, hvalue]

theorem clean_contentLength {n : Nat} (h : n < 2 ^ 32) : Clean lev ("content-length", toString n) := by
  have hspace := not_space_toString_nat n
  refine clean_of_name (by decide) (fun c hc => not_crlf (hspace c hc)) (trim_of_not_space hspace) ?_
  simp only [validate, if_true, Validator.unsignedNumber, readUnsigned_toString h]

theorem clean_contentType : Clean lev ("content-type", "text/xml") := by
  have hvalue : CleanValue "text/xml" := .of_not_space (by decide)
  cases lev <;> exact clean_of_name (by decide) hvalue.line hvalue.trimmed (by decide)

theorem clean_connection (keepAlive : Bool) :
    Clean lev ("connection", if keepAlive then "keep-alive" else "close") := by
  cases keepAlive with
  | true =>
    have hvalue : CleanValue "keep-alive" := .of_not_space (by decide)
    exact clean_of_name (by decide) hvalue.line hvalue.trimmed rfl
  | false =>
    have hvalue : CleanValue "close" := .of_not_space (by decide)
    exact clean_of_name (by decide) hvalue.line hvalue.trimmed rfl

theorem cleanOptions_new : CleanOptions lev [] newOptions where
  sorted := by decide
  clean o ho := by
    obtain rfl := List.mem_singleton.mp ho
    exact clean_connection false
  named name hname := by
    obtain rfl := List.mem_singleton.mp hname
    exact ⟨"close", rfl⟩

theorem CleanOptions.write {names : List String} {options : Options} (h : CleanOptions lev names options)
    {name value : String} (hclean : Clean lev (name, value)) :
    CleanOptions lev (name :: names) (SortedMap.upsert name value options) where
  sorted := (h.upsert hclean).sorted
  clean := (h.upsert hclean).clean
  named name' hname := by
    by_cases hsame : name' = name
    · exact ⟨value, by rw [lookup_upsert, if_pos hsame]⟩
    · have hold : name' ∈ "connection" :: names := by
        simpa [hsame] using hname
      exact (h.upsert hclean).named name' hold

/-! ## Packets -/

/-- A packet that is read as it was built. -/
structure Packet.Built (lev : VerificationLevel) (names : List String) (keepAlive : Bool) (p : Packet ι) : Prop where
  options : CleanOptions lev names p.header.options
  length : p.header.contentLength = .ok p.content.length
  alive : p.header.connKeepAlive = .ok keepAlive

theorem built {names : List String} {h : Header ι} (hc : CleanOptions lev names h.options) {content : List Char}
    (hlen : content.length < 2 ^ 32) (keepAlive : Bool) :
    ((Packet.new h content).setKeepAlive keepAlive).Built lev names keepAlive := by
  have hmod : content.length % 2 ^ 32 = content.length := Nat.mod_eq_of_lt hlen
  have hwritten := hc.upsert (clean_contentLength hlen)
  have hread := readUnsigned_toString hlen
  unfold Packet.new Packet.setKeepAlive Header.setContentLength
  rw [hmod]
  refine ⟨?_, ?_, ?_⟩
  · refine CleanOptions.upsert ?_ (clean_connection keepAlive)
    simp only
    split
    · exact hwritten
    · exact hwritten.upsert clean_contentType
  · simp only [Header.contentLength, Header.setConnKeepAlive, Header.setOption]
    rw [lookup_upsert, if_neg (by decide)]
    by_cases hzero : content.length = 0
    · rw [if_pos hzero, lookup_upsert, if_pos rfl]
      simp only [hread]
    · rw [if_neg hzero]
      simp only
      rw [lookup_upsert, if_neg (by decide), lookup_upsert, if_pos rfl]
      simp only [hread]
  · simp only [Header.connKeepAlive, Header.setConnKeepAlive, Header.setOption, lookup_upsert, if_true]
    cases keepAlive <;> rfl

theorem connKeepAlive_new (h : Header ι) (content : List Char) :
    (Packet.new h content).header.connKeepAlive = h.connKeepAlive := by
  have hlookup : (Packet.new h content).header.options.lookup "connection" = h.options.lookup "connection" := by
    unfold Packet.new Header.setContentLength Header.setOption
    simp only
    by_cases hzero : content.length % 2 ^ 32 = 0
    · rw [if_pos hzero, lookup_upsert, if_neg (by decide)]
    · rw [if_neg hzero]
      simp only
      rw [lookup_upsert, if_neg (by decide), lookup_upsert, if_neg (by decide)]
  unfold Header.connKeepAlive
  rw [hlookup]

/-- What a client sends on a connection that it opens for one call. -/
structure Call where
  /-- `PACKAGE " " VERSION`. -/
  agent : String
  uri : String
  vhost : String
  port : Nat
  /-- The document of the request. -/
  content : List Char
  deriving DecidableEq

namespace Call

/-- `process_session`: the packet of a call, without keep-alive. -/
def packet (c : Call) : Packet String :=
  (Packet.new (RequestHeader.new c.agent c.uri c.vhost c.port) c.content).setKeepAlive false

/-- The text of the header, before the empty line. -/
def text (c : Call) : List Char :=
  Header.text (RequestHeader.headLine c.packet.header) c.packet.header.options

def bytes (c : Call) : List Char := c.packet.dump RequestHeader.dump

theorem bytes_eq (c : Call) : c.bytes = c.text ++ (crlf ++ crlf) ++ c.content := by
  rw [bytes, Packet.dump, RequestHeader.dump, Header.dump_eq]
  rfl

/-- The server accepts the packet: no text breaks a line, and it is not too long. -/
structure Accepted (maxReqSz : Nat) (c : Call) : Prop where
  uriNe : c.uri ≠ ""
  uri : ∀ x ∈ c.uri.toList, isSpace x = false
  host : CleanValue (c.vhost ++ ":" ++ toString c.port)
  agent : CleanValue c.agent
  length : c.content.length < 2 ^ 32
  limit : maxReqSz ≠ 0 → c.bytes.length < maxReqSz ∧ maxReqSz < 2 ^ 32

variable {maxReqSz : Nat} {c : Call}

theorem Accepted.fits {M : Type} {cfg : ServerConfig M} (h : c.Accepted cfg.maxReqSz) : cfg.Fits c.content := by
  intro hmax
  have hlen := (h.limit hmax).1
  rw [bytes_eq, List.length_append] at hlen
  omega

theorem Accepted.built (h : c.Accepted maxReqSz) :
    c.packet.Built lev ["user-agent", "host"] false :=
  DispCalc.Iqxmlrpc.built ((cleanOptions_new.write (h.host.clean (by decide))).write (h.agent.clean (by decide)))
    h.length false

theorem Accepted.clean (h : c.Accepted maxReqSz) :
    RequestHeader.Clean lev c.packet.header := by
  have hhead : c.packet.header.head = c.uri := by
    unfold packet Packet.new Packet.setKeepAlive Header.setContentLength Header.setConnKeepAlive Header.setOption
    simp only
    split <;> rfl
  have hbuilt : c.packet.Built lev _ false := h.built
  obtain ⟨hsorted, hclean, hnamed⟩ := hbuilt.options
  refine ⟨hhead ▸ h.uriNe, hhead ▸ h.uri, hsorted, hclean, fun name hname => hnamed name ?_⟩
  simp only [List.mem_cons, List.not_mem_nil, or_false] at hname ⊢
  rcases hname with rfl | rfl | rfl <;> simp

theorem Accepted.sent (h : c.Accepted maxReqSz) :
    Sent (RequestHeader.parse lev) maxReqSz c.text c.content c.packet.header := by
  have hbuilt : c.packet.Built lev _ false := h.built
  have hclean : RequestHeader.Clean lev c.packet.header := h.clean
  have hlimit := h.limit
  rw [bytes_eq] at hlimit
  exact ⟨Header.apart_text (RequestHeader.headLine_crlf hclean) hclean.options.clean,
    RequestHeader.parse_text hclean, hbuilt.length, hlimit⟩

end Call

/-- The packet of a response, on a connection that is closed after it. -/
def answerPacket (package date : String) (content : List Char) : Packet Status :=
  (responsePacket package date content).setKeepAlive false

/-- What the texts of the server and of a response have to be like. -/
structure Answerable (package date : String) (content : List Char) : Prop where
  server : CleanValue package
  date : CleanValue date
  length : content.length < 2 ^ 32

section Answers

variable {package date : String} {content : List Char}

/-- The text of the header, before the empty line. -/
def answerText (package date : String) (content : List Char) : List Char :=
  Header.text (ResponseHeader.headLine (answerPacket package date content).header)
    (answerPacket package date content).header.options

theorem answer_dump (package date : String) (content : List Char) :
    (answerPacket package date content).dump ResponseHeader.dump =
      answerText package date content ++ (crlf ++ crlf) ++ content := by
  rw [Packet.dump, ResponseHeader.dump, Header.dump_eq]
  rfl

theorem answer_head (package date : String) (content : List Char) :
    (answerPacket package date content).header.head = ⟨200, "OK"⟩ := by
  unfold answerPacket responsePacket Packet.new Packet.setKeepAlive Header.setContentLength
    Header.setConnKeepAlive Header.setOption
  simp only
  split <;> rfl

theorem Answerable.built (h : Answerable package date content) :
    (answerPacket package date content).Built lev ["server", "date"] false :=
  DispCalc.Iqxmlrpc.built ((cleanOptions_new.write (h.date.clean (by decide))).write (h.server.clean (by decide)))
    h.length false

theorem Answerable.clean (h : Answerable package date content) :
    ResponseHeader.Clean lev (answerPacket package date content).header := by
  have hhead := answer_head package date content
  have hbuilt : (answerPacket package date content).Built lev _ false := h.built
  obtain ⟨hsorted, hclean, hnamed⟩ := hbuilt.options
  refine ⟨?_, ?_, ?_, hsorted, hclean, fun name hname => hnamed name ?_⟩
  · rw [hhead]
    decide
  · rw [hhead]
    exact not_of_any (by decide)
  · rw [hhead]
    decide
  · simp only [List.mem_cons, List.not_mem_nil, or_false] at hname ⊢
    rcases hname with rfl | rfl <;> simp

theorem Answerable.sent (h : Answerable package date content) :
    Sent (ResponseHeader.parse lev) 0 (answerText package date content) content
      (answerPacket package date content).header := by
  have hbuilt : (answerPacket package date content).Built lev _ false := h.built
  have hclean : ResponseHeader.Clean lev (answerPacket package date content).header := h.clean
  have hphrase : ResponseHeader.firstWord "OK" = "OK" := by decide
  have hparse := ResponseHeader.parse_text hclean
  rw [answer_head, hphrase, ← answer_head package date content] at hparse
  exact ⟨Header.apart_text (ResponseHeader.headLine_crlf hclean) hclean.options.clean, hparse, hbuilt.length,
    fun hmax => absurd rfl hmax⟩

end Answers

end DispCalc.Iqxmlrpc
