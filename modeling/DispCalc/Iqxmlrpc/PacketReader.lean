import DispCalc.Iqxmlrpc.HeaderText

/-!
# `Packet_reader`

Packets are read from the pieces that a socket delivers. Where the pieces are cut does not matter.
-/

open SortedMap Splitting

namespace DispCalc.Iqxmlrpc

structure Packet (ι : Type) where
  header : Header ι
  content : List Char

/-- The constructor of `Packet` sets the length. -/
def Packet.new {ι : Type} (header : Header ι) (content : List Char) : Packet ι :=
  ⟨header.setContentLength content.length, content⟩

def Packet.setKeepAlive {ι : Type} (p : Packet ι) (keepAlive : Bool) : Packet ι :=
  { p with header := p.header.setConnKeepAlive keepAlive }

/-- `Packet::dump`, where `dumpHeader` dumps a header of the packet's kind. -/
def Packet.dump {ι : Type} (dumpHeader : Header ι → List Char) (p : Packet ι) : List Char :=
  dumpHeader p.header ++ p.content

structure PacketReader (ι : Type) where
  headerCache : List Char := []
  contentCache : List Char := []
  header : Option (Header ι) := none
  constructed : Bool := false
  totalSz : Nat := 0

namespace PacketReader

variable {ι : Type}

/-- The rest of `check_sz`. `total_sz` is an `unsigned`. -/
def countSz (pktMaxSz : Nat) (r : PacketReader ι) (sz : Nat) : Except HttpError Unit × PacketReader ι :=
  let totalSz := (r.totalSz + sz) % 2 ^ 32
  (if pktMaxSz ≤ totalSz then .error .requestTooLarge else .ok (), { r with totalSz })

def checkSz (pktMaxSz : Nat) (r : PacketReader ι) (sz : Nat) : Except HttpError Unit × PacketReader ι :=
  if pktMaxSz = 0 then (.ok (), r)
  else
    match r.header with
    | none => countSz pktMaxSz r sz
    | some header =>
      match header.contentLength with
      | .error e => (.error e, r)
      | .ok len =>
        if pktMaxSz ≤ len + r.headerCache.length then (.error .requestTooLarge, r) else countSz pktMaxSz r sz

/-- `read_header`: whether the header is complete. -/
def readHeader (r : PacketReader ι) (s : List Char) : Bool × PacketReader ι :=
  let headerCache := r.headerCache ++ s
  match (splitFirst (crlf ++ crlf) headerCache).or (splitFirst ['\n', '\n'] headerCache) with
  | none => (false, { r with headerCache })
  | some (before, after) => (true, { r with headerCache := before, contentCache := r.contentCache ++ after })

/-- The header or the content that the bytes are added to. -/
def store (parse : List Char → Except HttpError (Header ι)) (r : PacketReader ι) (s : List Char) :
    Except HttpError Unit × PacketReader ι :=
  match r.header with
  | some _ => (.ok (), { r with contentCache := r.contentCache ++ s })
  | none =>
    if s.isEmpty then (.error (.malformedPacket none), r)
    else
      match readHeader r s with
      | (false, r) => (.ok (), r)
      | (true, r) =>
        match parse r.headerCache with
        | .error e => (.error e, r)
        | .ok header => (.ok (), { r with header := some header })

/-- The packet, if it is complete. -/
def finish (r : PacketReader ι) (s : List Char) (hdrOnly : Bool) :
    Except HttpError (Option (Packet ι)) × PacketReader ι :=
  match r.header with
  | none => (.ok none, r)
  | some header =>
    if hdrOnly then (.ok (some (Packet.new header [])), { r with constructed := true })
    else
      match header.contentLength with
      | .error e => (.error e, r)
      | .ok len =>
        if s.isEmpty ∧ len = 0 ∨ len ≤ r.contentCache.length then
          let contentCache := r.contentCache.take len
          (.ok (some (Packet.new header contentCache)), { r with contentCache, constructed := true })
        else (.ok none, r)

/-- `read_packet`. The reader that is left after an exception is the second component too. -/
def readPacket (parse : List Char → Except HttpError (Header ι)) (pktMaxSz : Nat) (r : PacketReader ι)
    (s : List Char) (hdrOnly : Bool := false) : Except HttpError (Option (Packet ι)) × PacketReader ι :=
  let r := if r.constructed then {} else r
  match checkSz pktMaxSz r s.length with
  | (.error e, r) => (.error e, r)
  | (.ok (), r) =>
    match store parse r s with
    | (.error e, r) => (.error e, r)
    | (.ok (), r) => finish r s hdrOnly

/-- The results of reading one piece after the other. -/
def readPieces (parse : List Char → Except HttpError (Header ι)) (pktMaxSz : Nat) :
    PacketReader ι → List (List Char) → List (Except HttpError (Option (Packet ι))) × PacketReader ι
  | r, [] => ([], r)
  | r, s :: pieces =>
    let (result, r) := readPacket parse pktMaxSz r s
    let (results, r) := readPieces parse pktMaxSz r pieces
    (result :: results, r)

/-! ## The pieces of one packet -/

variable {parse : List Char → Except HttpError (Header ι)} {pktMaxSz : Nat}

/-- A packet as it is sent: the header's text, the empty line and the content. -/
structure Sent (parse : List Char → Except HttpError (Header ι)) (pktMaxSz : Nat) (text content : List Char)
    (header : Header ι) : Prop where
  apart : Header.Apart text
  parsed : parse text = .ok header
  length : header.contentLength = .ok content.length
  limit : pktMaxSz ≠ 0 → (text ++ (crlf ++ crlf) ++ content).length < pktMaxSz ∧ pktMaxSz < 2 ^ 32

/-- What has been counted of `n` bytes. -/
def counted (pktMaxSz n : Nat) : Nat := if pktMaxSz = 0 then 0 else n

/-- The reader that has the first bytes of a header. -/
def inHeader (pktMaxSz : Nat) (p : List Char) : PacketReader ι :=
  { headerCache := p, totalSz := counted pktMaxSz p.length }

/-- The reader that has the header and the first bytes of the content. -/
def inContent (pktMaxSz : Nat) (text : List Char) (header : Header ι) (c : List Char) : PacketReader ι where
  headerCache := text
  contentCache := c
  header := some header
  totalSz := counted pktMaxSz (text ++ (crlf ++ crlf) ++ c).length

/-- The reader after the first bytes of a packet. -/
inductive Reading (pktMaxSz : Nat) (text content : List Char) (header : Header ι) :
    List Char → PacketReader ι → Prop where
  | header {p : List Char} (hp : p.length < (text ++ (crlf ++ crlf)).length) :
    Reading pktMaxSz text content header p (inHeader pktMaxSz p)
  | content {c : List Char} (hc : c.length < content.length) :
    Reading pktMaxSz text content header (text ++ (crlf ++ crlf) ++ c) (inContent pktMaxSz text header c)

variable {text content : List Char} {header : Header ι}

theorem Reading.lt {p : List Char} {r : PacketReader ι} (h : Reading pktMaxSz text content header p r) :
    p.length < (text ++ (crlf ++ crlf) ++ content).length := by
  cases h with
  | header hp => exact hp.trans_le (by simp)
  | content hc => simpa using hc

theorem countSz_ok {r : PacketReader ι} {n sz total : Nat} (hmax : pktMaxSz ≠ 0)
    (hlimit : total < pktMaxSz ∧ pktMaxSz < 2 ^ 32) (hr : r.totalSz = counted pktMaxSz n)
    (hle : n + sz ≤ total) :
    countSz pktMaxSz r sz = (.ok (), { r with totalSz := counted pktMaxSz (n + sz) }) := by
  have hmod : (n + sz) % 2 ^ 32 = n + sz := Nat.mod_eq_of_lt (by omega)
  have hlt : ¬ pktMaxSz ≤ n + sz := by omega
  simp only [countSz, hr, counted, if_neg hmax, hmod, if_neg hlt]

theorem checkSz_ok (h : Sent parse pktMaxSz text content header) {r : PacketReader ι} {n sz : Nat}
    (hr : r.totalSz = counted pktMaxSz n) (hle : n + sz ≤ (text ++ (crlf ++ crlf) ++ content).length)
    (hheader : ∀ hd, r.header = some hd → hd = header ∧ r.headerCache = text) :
    checkSz pktMaxSz r sz = (.ok (), { r with totalSz := counted pktMaxSz (n + sz) }) := by
  unfold checkSz
  by_cases hmax : pktMaxSz = 0
  · rw [if_pos hmax]
    simp only [counted, if_pos hmax] at hr ⊢
    rw [← hr]
  · have hlimit := h.limit hmax
    have hcount := countSz_ok hmax hlimit hr hle
    rw [if_neg hmax]
    split
    · exact hcount
    · rename_i hd hcase
      obtain ⟨rfl, hcache⟩ := hheader hd hcase
      have hlt : ¬ pktMaxSz ≤ content.length + r.headerCache.length := by
        rw [hcache]
        simp only [List.length_append] at hlimit
        omega
      simp only [h.length, if_neg hlt]
      exact hcount

theorem readHeader_none (h : Header.Apart text) {r : PacketReader ι} {s rest : List Char}
    (hs : r.headerCache ++ s ++ rest = text ++ (crlf ++ crlf) ++ content)
    (hlt : (r.headerCache ++ s).length < (text ++ (crlf ++ crlf)).length) :
    readHeader r s = (false, { r with headerCache := r.headerCache ++ s }) := by
  have htake : r.headerCache ++ s = (text ++ (crlf ++ crlf) ++ content).take (r.headerCache ++ s).length := by
    rw [← hs, List.take_left]
  have hcrlf : splitFirst (crlf ++ crlf) (r.headerCache ++ s) = none := by
    rw [htake]
    exact splitFirst_take (Header.ends_text h) hlt
  have hblank : splitFirst ['\n', '\n'] (r.headerCache ++ s) = none := by
    rw [splitFirst_eq_none, htake, List.take_append_of_le_length hlt.le]
    exact fun hinside => Header.no_blank_line h (hinside.trans (List.take_prefix ..).isInfix)
  simp only [readHeader, hcrlf, hblank, Option.or_none]

theorem readHeader_some (h : Header.Apart text) {r : PacketReader ι} {s c : List Char}
    (hs : r.headerCache ++ s = text ++ (crlf ++ crlf) ++ c) :
    readHeader r s = (true, { r with headerCache := text, contentCache := r.contentCache ++ c }) := by
  simp only [readHeader, hs, splitFirst_append (Header.ends_text h), Option.some_or]

theorem finish_none (h : Sent parse pktMaxSz text content header) {r : PacketReader ι}
    (hr : r.header = some header) {s : List Char} (hs : s ≠ []) (hlt : r.contentCache.length < content.length) :
    finish r s false = (.ok none, r) := by
  have hnot : ¬ (s.isEmpty = true ∧ content.length = 0 ∨ content.length ≤ r.contentCache.length) := by
    simp only [List.isEmpty_iff, hs, false_and, false_or]
    omega
  simp only [finish, hr, Bool.false_eq_true, if_false, h.length, if_neg hnot]

theorem finish_some (h : Sent parse pktMaxSz text content header) {r : PacketReader ι}
    (hr : r.header = some header) (s : List Char) (hc : r.contentCache = content) :
    finish r s false = (.ok (some (Packet.new header content)), { r with constructed := true }) := by
  have hready : s.isEmpty = true ∧ content.length = 0 ∨ content.length ≤ content.length := Or.inr le_rfl
  simp only [finish, hr, Bool.false_eq_true, if_false, h.length, hc, if_pos hready, List.take_length]

theorem readPacket_piece (h : Sent parse pktMaxSz text content header) {p s rest : List Char}
    {r : PacketReader ι} (hr : Reading pktMaxSz text content header p r) (hs : s ≠ [])
    (hall : p ++ s ++ rest = text ++ (crlf ++ crlf) ++ content) :
    (rest ≠ [] → ∃ r', readPacket parse pktMaxSz r s = (.ok none, r') ∧
      Reading pktMaxSz text content header (p ++ s) r') ∧
    (rest = [] → ∃ r', readPacket parse pktMaxSz r s = (.ok (some (Packet.new header content)), r') ∧
      r'.constructed = true) := by
  have hlen : p.length + s.length + rest.length = (text ++ (crlf ++ crlf) ++ content).length := by
    rw [← hall, List.length_append, List.length_append]
  have hempty : s.isEmpty = false := by simpa using hs
  cases hr with
  | header hp =>
    have hle : p.length + s.length ≤ (text ++ (crlf ++ crlf) ++ content).length := by omega
    have hcheck := checkSz_ok h (r := inHeader pktMaxSz p) (n := p.length) rfl hle nofun
    by_cases hlt : (p ++ s).length < (text ++ (crlf ++ crlf)).length
    · -- The header goes on.
      have hread := readHeader_none h.apart
        (r := { (inHeader pktMaxSz p : PacketReader ι) with totalSz := counted pktMaxSz (p.length + s.length) })
        hall hlt
      have hpiece : readPacket parse pktMaxSz (inHeader pktMaxSz p) s = (.ok none, inHeader pktMaxSz (p ++ s)) := by
        simp only [inHeader] at hcheck hread ⊢
        simp only [readPacket, hcheck, store, hempty, hread, finish, Bool.false_eq_true, if_false,
          List.length_append]
      refine ⟨fun _ => ⟨_, hpiece, .header hlt⟩, fun hrest => ?_⟩
      rw [hrest, List.append_nil] at hall
      simp only [hall, List.length_append] at hlt
      omega
    · -- The header ends in this piece.
      obtain ⟨c, hc⟩ : ∃ c, p ++ s = text ++ (crlf ++ crlf) ++ c := by
        have hstart := List.prefix_of_prefix_length_le (List.prefix_append _ _)
          (hall ▸ List.prefix_append (p ++ s) rest) (not_lt.mp hlt)
        exact hstart.imp fun _ h => h.symm
      have hcontent : c ++ rest = content := by
        rw [hc, List.append_assoc] at hall
        exact List.append_cancel_left hall
      have hread := readHeader_some h.apart
        (r := { (inHeader pktMaxSz p : PacketReader ι) with totalSz := counted pktMaxSz (p.length + s.length) }) hc
      have hpiece : readPacket parse pktMaxSz (inHeader pktMaxSz p) s =
          finish (inContent pktMaxSz text header c) s false := by
        simp only [inHeader, inContent, ← hc] at hcheck hread ⊢
        simp only [readPacket, hcheck, store, hempty, hread, h.parsed, Bool.false_eq_true, if_false,
          List.length_append, List.nil_append]
      refine ⟨fun hrest => ?_, fun hrest => ?_⟩
      · have hshort : c.length < content.length := by
          have hpos := List.length_pos_of_ne_nil hrest
          rw [← hcontent, List.length_append]
          omega
        exact ⟨_, hpiece.trans (finish_none h rfl hs hshort), hc ▸ .content hshort⟩
      · rw [hrest, List.append_nil] at hcontent
        exact ⟨_, hpiece.trans (finish_some h rfl s hcontent), rfl⟩
  | @content c hc =>
    have hle : (text ++ (crlf ++ crlf) ++ c).length + s.length ≤ (text ++ (crlf ++ crlf) ++ content).length := by
      omega
    have hcheck := checkSz_ok h (r := inContent pktMaxSz text header c)
      (n := (text ++ (crlf ++ crlf) ++ c).length) rfl hle
      fun hd hhd => ⟨(Option.some.inj hhd).symm, rfl⟩
    have hcontent : c ++ s ++ rest = content := by
      simp only [List.append_assoc] at hall
      simpa using hall
    have hpiece : readPacket parse pktMaxSz (inContent pktMaxSz text header c) s =
        finish (inContent pktMaxSz text header (c ++ s)) s false := by
      simp only [inContent, List.length_append, ← add_assoc] at hcheck ⊢
      simp only [readPacket, hcheck, store, Bool.false_eq_true, if_false]
    refine ⟨fun hrest => ?_, fun hrest => ?_⟩
    · have hshort : (c ++ s).length < content.length := by
        have hpos := List.length_pos_of_ne_nil hrest
        simp only [← hcontent, List.length_append]
        omega
      rw [List.append_assoc]
      exact ⟨_, hpiece.trans (finish_none h rfl hs hshort), .content hshort⟩
    · rw [hrest, List.append_nil] at hcontent
      exact ⟨_, hpiece.trans (finish_some h rfl s hcontent), rfl⟩

/-! ## Packet after packet -/

/-- A packet on its way, cut into pieces somehow. -/
structure Transmission (parse : List Char → Except HttpError (Header ι)) (pktMaxSz : Nat) where
  text : List Char
  content : List Char
  header : Header ι
  sent : Sent parse pktMaxSz text content header
  pieces : List (List Char)
  pieces_ne : ∀ s ∈ pieces, s ≠ []
  flatten : pieces.flatten = text ++ (crlf ++ crlf) ++ content

/-- What the reader answers: the packet at the last piece. -/
def Transmission.results (t : Transmission parse pktMaxSz) : List (Except HttpError (Option (Packet ι))) :=
  List.replicate (t.pieces.length - 1) (.ok none) ++ [.ok (some (Packet.new t.header t.content))]

/-- A reader that is new, or that has built a packet. -/
def Ready (r : PacketReader ι) : Prop := r = {} ∨ r.constructed = true

theorem inHeader_nil : (inHeader pktMaxSz [] : PacketReader ι) = {} := by
  simp [inHeader, counted]

theorem readPacket_ready {r : PacketReader ι} (h : Ready r) (s : List Char) :
    readPacket parse pktMaxSz r s = readPacket parse pktMaxSz {} s := by
  rcases h with rfl | h
  · rfl
  · simp only [readPacket, h, if_true, Bool.false_eq_true, if_false]

theorem readPieces_reading (h : Sent parse pktMaxSz text content header) {p : List Char} {r : PacketReader ι}
    (hr : Reading pktMaxSz text content header p r) {pieces : List (List Char)}
    (hne : ∀ s ∈ pieces, s ≠ []) (hpieces : pieces ≠ [])
    (hall : p ++ pieces.flatten = text ++ (crlf ++ crlf) ++ content) :
    ∃ r', readPieces parse pktMaxSz r pieces = (List.replicate (pieces.length - 1) (.ok none) ++
      [.ok (some (Packet.new header content))], r') ∧ r'.constructed = true := by
  induction pieces generalizing p r with
  | nil => exact absurd rfl hpieces
  | cons s pieces ih =>
    rw [List.flatten_cons, ← List.append_assoc] at hall
    have hs := hne s List.mem_cons_self
    obtain ⟨hmore, hlast⟩ := readPacket_piece h hr hs hall
    cases pieces with
    | nil =>
      obtain ⟨r', hread, hcon⟩ := hlast rfl
      exact ⟨r', by simp [readPieces, hread], hcon⟩
    | cons s' pieces =>
      have hs' := hne s' (by simp)
      obtain ⟨r1, hread, hr1⟩ := hmore (by simp [hs'])
      obtain ⟨r', hrest, hcon⟩ := ih hr1 (fun u hu => hne u (List.mem_cons_of_mem _ hu)) (by simp) hall
      refine ⟨r', ?_, hcon⟩
      rw [readPieces, hread]
      simp only [hrest, List.length_cons, Nat.add_sub_cancel, List.replicate_succ, List.cons_append]

theorem readPieces_append (r : PacketReader ι) (ps qs : List (List Char)) :
    readPieces parse pktMaxSz r (ps ++ qs) =
      ((readPieces parse pktMaxSz r ps).1 ++
        (readPieces parse pktMaxSz (readPieces parse pktMaxSz r ps).2 qs).1,
      (readPieces parse pktMaxSz (readPieces parse pktMaxSz r ps).2 qs).2) := by
  induction ps generalizing r with
  | nil => rfl
  | cons s ps ih => simp only [List.cons_append, readPieces, ih]

theorem Transmission.pieces_ne_nil (t : Transmission parse pktMaxSz) : t.pieces ≠ [] := by
  intro h
  have hflatten := t.flatten
  simp [h, crlf] at hflatten

theorem readPieces_transmission (t : Transmission parse pktMaxSz) {r : PacketReader ι} (hr : Ready r) :
    ∃ r', readPieces parse pktMaxSz r t.pieces = (t.results, r') ∧ Ready r' := by
  have hstart : Reading pktMaxSz t.text t.content t.header [] ({} : PacketReader ι) := by
    have hnil : (inHeader pktMaxSz [] : PacketReader ι) = {} := inHeader_nil
    rw [← hnil]
    exact .header (by simp [crlf])
  obtain ⟨r', hread, hcon⟩ := readPieces_reading t.sent hstart t.pieces_ne t.pieces_ne_nil t.flatten
  refine ⟨r', ?_, Or.inr hcon⟩
  obtain ⟨s, pieces, hpieces⟩ := List.exists_cons_of_ne_nil t.pieces_ne_nil
  rw [hpieces, readPieces] at hread ⊢
  rw [readPacket_ready hr, hread, Transmission.results, hpieces]

/-- **Where the bytes are cut does not matter.** The pieces of packets that are sent one after the
other give each packet once, in order, at its last piece. -/
theorem readPieces_transmissions (ts : List (Transmission parse pktMaxSz)) {r : PacketReader ι}
    (hr : Ready r) : ∃ r', readPieces parse pktMaxSz r (ts.flatMap Transmission.pieces) =
      (ts.flatMap Transmission.results, r') ∧ Ready r' := by
  induction ts generalizing r with
  | nil => exact ⟨r, rfl, hr⟩
  | cons t ts ih =>
    obtain ⟨r1, h1, hr1⟩ := readPieces_transmission t hr
    obtain ⟨r', h', hr'⟩ := ih hr1
    refine ⟨r', ?_, hr'⟩
    rw [List.flatMap_cons, readPieces_append, h1, h', List.flatMap_cons]

theorem sent_posted : Sent (RequestHeader.parse .weak) 100 "POST / HTTP/1.0\r\ncontent-length: 3".toList
    "abc".toList ⟨"/", [("connection", "close"), ("content-length", "3"), ("host", ""), ("user-agent", "unknown")]⟩ :=
  ⟨by simp [Header.Apart, isCrlf], by decide +kernel, by decide +kernel, by decide +kernel⟩

theorem pieces_posted :
    (∀ s ∈ ["POST / HTTP/1.0\r\ncontent-length: 3\r\n\r".toList, "\nab".toList, "c".toList], s ≠ []) ∧
      ["POST / HTTP/1.0\r\ncontent-length: 3\r\n\r".toList, "\nab".toList, "c".toList].flatten =
        "POST / HTTP/1.0\r\ncontent-length: 3".toList ++ (crlf ++ crlf) ++ "abc".toList := by
  decide +kernel

/-- A packet that is cut inside the empty line. -/
def posted : Transmission (RequestHeader.parse .weak) 100 :=
  ⟨_, _, _, sent_posted, _, pieces_posted.1, pieces_posted.2⟩

theorem readPieces_transmissions_posted :
    ∃ r', readPieces (RequestHeader.parse .weak) 100 {} ([posted, posted].flatMap Transmission.pieces) =
      ([posted, posted].flatMap Transmission.results, r') ∧ Ready r' :=
  readPieces_transmissions [posted, posted] (Or.inl rfl)

/-! ## The limit -/

/-- What the reader keeps in memory. -/
def held (r : PacketReader ι) : Nat := r.headerCache.length + r.contentCache.length

/-- The reader has received `n` bytes. The counter covers what it holds, which is below the limit. -/
structure Within (pktMaxSz n : Nat) (r : PacketReader ι) : Prop where
  counted : r.held ≤ r.totalSz
  received : r.totalSz ≤ n
  below : r.held < pktMaxSz

theorem within_new (h : 0 < pktMaxSz) (n : Nat) : Within pktMaxSz n ({} : PacketReader ι) :=
  ⟨Nat.le_refl _, Nat.zero_le _, h⟩

theorem checkSz_within {r : PacketReader ι} {n sz : Nat} (h : Within pktMaxSz n r) (hn : n + sz < 2 ^ 32) :
    Within pktMaxSz (n + sz) (checkSz pktMaxSz r sz).2 ∧
      ((checkSz pktMaxSz r sz).1 = .ok () → (checkSz pktMaxSz r sz).2 = { r with totalSz := r.totalSz + sz } ∧
        r.held + sz < pktMaxSz) := by
  obtain ⟨hcounted, hreceived, hbelow⟩ := h
  have hcount : Within pktMaxSz (n + sz) (countSz pktMaxSz r sz).2 ∧
      ((countSz pktMaxSz r sz).1 = .ok () → (countSz pktMaxSz r sz).2 = { r with totalSz := r.totalSz + sz } ∧
        r.held + sz < pktMaxSz) := by
    have hmod : (r.totalSz + sz) % 2 ^ 32 = r.totalSz + sz := Nat.mod_eq_of_lt (by omega)
    simp only [countSz, hmod]
    refine ⟨⟨hcounted.trans (Nat.le_add_right _ _), by simp only; omega, hbelow⟩, fun hok => ⟨trivial, ?_⟩⟩
    split at hok
    · cases hok
    · omega
  have hsame : Within pktMaxSz (n + sz) r := ⟨hcounted, by omega, hbelow⟩
  have hmax : pktMaxSz ≠ 0 := by omega
  unfold checkSz
  rw [if_neg hmax]
  split
  · exact hcount
  · split
    · exact ⟨hsame, nofun⟩
    · split
      · exact ⟨hsame, nofun⟩
      · exact hcount

theorem readHeader_held (r : PacketReader ι) (s : List Char) :
    (readHeader r s).2.held ≤ r.held + s.length ∧ (readHeader r s).2.totalSz = r.totalSz := by
  unfold readHeader held
  simp only
  split
  · exact ⟨by simp; omega, rfl⟩
  · rename_i before after hsplit
    refine ⟨?_, rfl⟩
    have hle : before.length + after.length ≤ (r.headerCache ++ s).length := by
      rcases Option.or_eq_some_iff.mp hsplit with h | ⟨-, h⟩ <;>
      · rw [splitFirst_eq h]
        simp only [List.length_append]
        omega
    simp only [List.length_append] at hle ⊢
    omega

theorem store_held (parse : List Char → Except HttpError (Header ι)) (r : PacketReader ι) (s : List Char) :
    (store parse r s).2.held ≤ r.held + s.length ∧ (store parse r s).2.totalSz = r.totalSz := by
  unfold store
  split
  · refine ⟨?_, rfl⟩
    unfold held
    simp only [List.length_append]
    omega
  · split
    · exact ⟨Nat.le_add_right _ _, rfl⟩
    · obtain ⟨hheld, htotal⟩ := readHeader_held r s
      split
      · rename_i r' hr
        rw [hr] at hheld htotal
        exact ⟨hheld, htotal⟩
      · rename_i r' hr
        rw [hr] at hheld htotal
        split <;> exact ⟨hheld, htotal⟩

theorem finish_held (r : PacketReader ι) (s : List Char) (hdrOnly : Bool) :
    (finish r s hdrOnly).2.held ≤ r.held ∧ (finish r s hdrOnly).2.totalSz = r.totalSz ∧
      ∀ p, (finish r s hdrOnly).1 = .ok (some p) → p.content.length ≤ r.held := by
  unfold finish
  split
  · exact ⟨le_rfl, rfl, nofun⟩
  · split
    · refine ⟨le_rfl, rfl, fun p hp => ?_⟩
      obtain rfl := Option.some.inj (Except.ok.inj hp)
      exact Nat.zero_le _
    · split
      · exact ⟨le_rfl, rfl, nofun⟩
      · split
        · refine ⟨?_, rfl, fun p hp => ?_⟩
          · unfold held
            simp only [List.length_take]
            omega
          · obtain rfl := Option.some.inj (Except.ok.inj hp)
            unfold held Packet.new
            simp only [List.length_take]
            omega
        · exact ⟨le_rfl, rfl, nofun⟩

theorem readPacket_within (parse : List Char → Except HttpError (Header ι)) {r : PacketReader ι} {n : Nat}
    (h : Within pktMaxSz n r) {s : List Char}
    (hn : n + s.length < 2 ^ 32) (hdrOnly : Bool) :
    Within pktMaxSz (n + s.length) (readPacket parse pktMaxSz r s hdrOnly).2 ∧
      ∀ p, (readPacket parse pktMaxSz r s hdrOnly).1 = .ok (some p) → p.content.length < pktMaxSz := by
  have hstart : Within pktMaxSz n (if r.constructed then {} else r) := by
    split
    · exact within_new (by have := h.below; omega) n
    · exact h
  unfold readPacket
  simp only
  generalize (if r.constructed = true then ({} : PacketReader ι) else r) = r0 at hstart
  obtain ⟨hcheck, hok⟩ := checkSz_within hstart hn
  rcases hres : checkSz pktMaxSz r0 s.length with ⟨e | ⟨⟩, r1⟩
  · rw [hres] at hcheck
    exact ⟨hcheck, nofun⟩
  · rw [hres] at hok
    obtain ⟨hr1, hfit⟩ := hok rfl
    simp only at hr1
    subst hr1
    have hstored := store_held parse { r0 with totalSz := r0.totalSz + s.length } s
    simp only at hstored ⊢
    have hheld : held { r0 with totalSz := r0.totalSz + s.length } = r0.held := rfl
    rw [hheld] at hstored
    obtain ⟨hcounted, hreceived, -⟩ := hstart
    rcases hstore : store parse { r0 with totalSz := r0.totalSz + s.length } s with ⟨e | ⟨⟩, r2⟩
    · rw [hstore] at hstored
      simp only at hstored ⊢
      exact ⟨⟨by omega, by omega, by omega⟩, nofun⟩
    · rw [hstore] at hstored
      simp only at hstored ⊢
      obtain ⟨hfinish, htotal, hpacket⟩ := finish_held r2 s hdrOnly
      exact ⟨⟨by omega, by omega, by omega⟩, fun p hp => by have := hpacket p hp; omega⟩

/-- **The reader never holds as much as the limit**, whatever the pieces are, and no packet that it
gives is as long. -/
theorem readPieces_within (hmax : 0 < pktMaxSz) (pieces : List (List Char))
    (hlen : pieces.flatten.length < 2 ^ 32) :
    (readPieces parse pktMaxSz {} pieces).2.held < pktMaxSz ∧
      ∀ p, .ok (some p) ∈ (readPieces parse pktMaxSz {} pieces).1 → p.content.length < pktMaxSz := by
  have hrun : ∀ (n : Nat) (r : PacketReader ι), Within pktMaxSz n r → n + pieces.flatten.length < 2 ^ 32 →
      (readPieces parse pktMaxSz r pieces).2.held < pktMaxSz ∧
        ∀ p, .ok (some p) ∈ (readPieces parse pktMaxSz r pieces).1 → p.content.length < pktMaxSz := by
    clear hlen
    induction pieces with
    | nil => exact fun n r hr _ => ⟨hr.below, nofun⟩
    | cons s pieces ih =>
      intro n r hr hn
      rw [List.flatten_cons, List.length_append] at hn
      obtain ⟨hwithin, hpacket⟩ := readPacket_within parse hr (s := s) (by omega) false
      obtain ⟨hheld, hall⟩ := ih _ _ hwithin (by omega)
      refine ⟨hheld, fun p hp => ?_⟩
      rcases List.mem_cons.mp hp with hp | hp
      · exact hpacket p hp.symm
      · exact hall p hp
  exact hrun 0 {} (within_new hmax 0) (by omega)

theorem readPieces_within_posted :
    (readPieces (RequestHeader.parse .weak) 100 {} posted.pieces).2.held < 100 ∧
      ∀ p, .ok (some p) ∈ (readPieces (RequestHeader.parse .weak) 100 {} posted.pieces).1 →
        p.content.length < 100 :=
  readPieces_within (by decide) posted.pieces (by rw [posted.flatten]; decide +kernel)

end PacketReader

end DispCalc.Iqxmlrpc
