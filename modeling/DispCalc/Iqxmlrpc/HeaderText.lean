import DispCalc.Iqxmlrpc.Header

/-!
# Headers that are written and parsed

A header is parsed from what its dump has before the empty line. The empty line comes once, at the
end.
-/

open SortedMap Splitting

namespace DispCalc.Iqxmlrpc

open DispCalc.Parser (isSpace)

/-- An option that is parsed as it was written. -/
structure Clean (lev : VerificationLevel) (o : String × String) : Prop where
  nameLine : ∀ c ∈ o.1.toList, isCrlf c = false
  noColon : ':' ∉ o.1.toList
  lower : toLower o.1.toList = o.1.toList
  nameTrim : trim o.1.toList = o.1.toList
  valueLine : ∀ c ∈ o.2.toList, isCrlf c = false
  valueTrim : trim o.2.toList = o.2.toList
  valid : validate lev o.1 o.2 = .ok ()

namespace Header

/-- The dump without the empty line. -/
def text (headLine : List Char) (options : Options) : List Char :=
  headLine ++ options.flatMap fun o => crlf ++ optionLine o

theorem dump_eq (headLine : List Char) (options : Options) :
    dump headLine options = text headLine options ++ (crlf ++ crlf) := by
  have hshift : crlf ++ options.flatMap (fun o => optionLine o ++ crlf) =
      (options.flatMap fun o => crlf ++ optionLine o) ++ crlf := by
    induction options with
    | nil => rfl
    | cons o options ih => simp only [List.flatMap_cons, List.append_assoc, ih]
  rw [dump, text, List.append_assoc headLine, hshift]
  simp only [List.append_assoc]

variable {lev : VerificationLevel}

/-! ## Lines -/

theorem optionLine_crlf {o : String × String} (h : Clean lev o) : ∀ c ∈ optionLine o, isCrlf c = false := by
  intro c hc
  rw [optionLine, List.append_assoc, List.mem_append, List.mem_append] at hc
  rcases hc with hc | hc | hc
  · exact h.nameLine c hc
  · rcases List.mem_pair.mp hc with rfl | rfl <;> rfl
  · exact h.valueLine c hc

theorem optionLine_head (o : String × String) : ∃ c cs, optionLine o = c :: cs := by
  cases hl : optionLine o with
  | nil => simp [optionLine] at hl
  | cons c cs => exact ⟨c, cs, rfl⟩

theorem head_line {o : String × String} (h : Clean lev o) (l : List Char) :
    ∃ c, (optionLine o ++ l).head? = some c ∧ isCrlf c = false := by
  obtain ⟨c, cs, hl⟩ := optionLine_head o
  exact ⟨c, by rw [hl]; rfl, optionLine_crlf h c (by rw [hl]; exact List.mem_cons_self)⟩

theorem splitRuns_text {headLine : List Char} (hhead : ∀ c ∈ headLine, isCrlf c = false)
    {options : Options} (h : ∀ o ∈ options, Clean lev o) :
    splitRuns isCrlf (text headLine options) = headLine :: options.map optionLine := by
  induction options generalizing headLine with
  | nil =>
    rw [text, List.flatMap_nil, List.append_nil, splitRuns_last hhead]
    rfl
  | cons o options ih =>
    have ho := h o List.mem_cons_self
    have hrest := ih (optionLine_crlf ho) fun o' ho' => h o' (List.mem_cons_of_mem _ ho')
    obtain ⟨c, hc, hcrlf⟩ := head_line ho (options.flatMap fun o => crlf ++ optionLine o)
    rw [text, List.flatMap_cons, List.append_assoc, ← List.append_assoc headLine,
      splitRuns_append hhead (by simp [crlf]) (by simp [crlf, isCrlf]) (by rw [hc]; simp [hcrlf])]
    exact congrArg (headLine :: ·) hrest

theorem parseOption_line {o : String × String} (h : Clean lev o) (options : Options) :
    parseOption lev options (optionLine o) = .ok (upsert o.1 o.2 options) := by
  have hsplit : splitFirst [':'] (optionLine o) = some (o.1.toList, ' ' :: o.2.toList) := by
    have hfirst := splitFirst_append (ends_singleton h.noColon) (' ' :: o.2.toList)
    rwa [List.append_assoc, ← show optionLine o = o.1.toList ++ ([':'] ++ ' ' :: o.2.toList) by
      simp [optionLine]] at hfirst
  have htrim : trim (' ' :: o.2.toList) = o.2.toList := h.valueTrim
  rw [parseOption, hsplit]
  simp only [htrim, h.nameTrim, h.lower, String.ofList_toList, setOptionChecked, h.valid]
  rfl

theorem parse_text {headLine : List Char} (hhead : ∀ c ∈ headLine, isCrlf c = false)
    {options : Options} (h : ∀ o ∈ options, Clean lev o) (hs : Sorted options)
    (hconn : ∃ v, options.lookup "connection" = some v) :
    parse lev (text headLine options) = .ok (headLine, options) := by
  have hfold : ∀ start : Options, (options.map optionLine).foldlM (parseOption lev) start =
      .ok (options.foldl (fun m e => upsert e.1 e.2 m) start) := by
    clear hs hconn
    induction options with
    | nil => exact fun _ => rfl
    | cons o options ih =>
      intro start
      rw [List.map_cons, List.foldlM_cons, parseOption_line (h o List.mem_cons_self)]
      exact ih (fun o' ho' => h o' (List.mem_cons_of_mem _ ho')) _
  have hnew : Sorted newOptions := by decide
  rw [parse, splitRuns_text hhead h]
  simp only [hfold]
  rw [foldl_upsert_of_subset hnew hs (by simpa [newOptions] using hconn)]
  rfl

/-! ## The empty line -/

/-- After each line break another line begins. -/
def Apart : List Char → Prop
  | [] => True
  | c :: cs => (c = '\n' → ∃ d, cs.head? = some d ∧ isCrlf d = false) ∧ Apart cs

theorem Apart.line {line l : List Char} (hline : ∀ c ∈ line, isCrlf c = false) (hl : Apart l) :
    Apart (line ++ l) := by
  induction line with
  | nil => exact hl
  | cons c line ih =>
    have hc := hline c List.mem_cons_self
    refine ⟨?_, ih fun d hd => hline d (List.mem_cons_of_mem _ hd)⟩
    rintro rfl
    cases hc

theorem apart_text {headLine : List Char} (hhead : ∀ c ∈ headLine, isCrlf c = false)
    {options : Options} (h : ∀ o ∈ options, Clean lev o) : Apart (text headLine options) := by
  induction options generalizing headLine with
  | nil => exact Apart.line hhead trivial
  | cons o options ih =>
    have ho := h o List.mem_cons_self
    have hrest := ih (optionLine_crlf ho) fun o' ho' => h o' (List.mem_cons_of_mem _ ho')
    rw [text, List.flatMap_cons, List.append_assoc]
    exact Apart.line hhead ⟨nofun, fun _ => head_line ho _, hrest⟩

theorem ends_text {l : List Char} (h : Apart l) : Ends (crlf ++ crlf) l := by
  induction l with
  | nil => exact ends_nil _
  | cons c l ih =>
    obtain ⟨hc, hl⟩ := h
    refine (ih hl).cons fun hstart => ?_
    cases l with
    | nil => simp [crlf] at hstart
    | cons d l =>
      simp only [crlf, List.cons_append, List.nil_append, List.cons_prefix_cons] at hstart
      obtain ⟨-, rfl, hstart⟩ := hstart
      -- A line begins with a carriage return.
      obtain ⟨e, he, hcrlf⟩ := hl.1 rfl
      cases l with
      | nil => cases he
      | cons e' l =>
        obtain rfl := Option.some.inj he
        rw [List.cons_append, List.cons_prefix_cons] at hstart
        rw [← hstart.1] at hcrlf
        cases hcrlf

theorem no_blank_line {l : List Char} (h : Apart l) : ¬ ['\n', '\n'] <:+: l ++ (crlf ++ crlf) := by
  induction l with
  | nil => decide
  | cons c l ih =>
    obtain ⟨hc, hl⟩ := h
    rw [List.cons_append, List.infix_cons_iff]
    rintro (hstart | hinside)
    · rw [List.cons_prefix_cons] at hstart
      obtain ⟨d, hd, hcrlf⟩ := hc hstart.1.symm
      cases l with
      | nil => cases hd
      | cons d' l =>
        obtain rfl := Option.some.inj hd
        rw [List.cons_append, List.cons_prefix_cons] at hstart
        rw [← hstart.2.1] at hcrlf
        cases hcrlf
    · exact ih hl hinside

end Header

/-! ## Requests and responses -/

theorem not_of_any {p : Char → Bool} {s : List Char} (h : s.any p = false) : ∀ c ∈ s, p c = false := by
  simpa using h

theorem not_crlf {c : Char} (h : isSpace c = false) : isCrlf c = false := by
  simp only [isSpace, Bool.or_eq_false_iff, decide_eq_false_iff_not] at h
  simp [isCrlf, h]

theorem not_space_of_isDigit {c : Char} (h : c.isDigit = true) : isSpace c = false := by
  by_contra hspace
  simp only [Bool.not_eq_false, isSpace, Bool.or_eq_true, decide_eq_true_eq] at hspace
  rcases hspace with ((((rfl | rfl) | rfl) | rfl) | rfl) | rfl <;> simp at h

theorem not_space_toDigits (n : Nat) : ∀ c ∈ Nat.toDigits 10 n, isSpace c = false := fun _ hc =>
  not_space_of_isDigit (Nat.isDigit_of_mem_toDigits (by omega) (by omega) hc)

theorem not_space_toString (i : Int) : ∀ c ∈ (toString i).toList, isSpace c = false := by
  intro c hc
  cases i with
  | ofNat n =>
    rw [toList_toString_ofNat] at hc
    exact not_space_toDigits n c hc
  | negSucc n =>
    rw [toList_toString_negSucc] at hc
    rcases List.mem_cons.mp hc with rfl | hc
    · rfl
    · exact not_space_toDigits _ c hc

theorem setOptionDefault_of_mem {name value v : String} {options : Options}
    (h : options.lookup name = some v) : setOptionDefault name value options = options := by
  rw [setOptionDefault, h]
  rfl

/-- The options of a header that can be sent, the names among them that the receiver asks for. -/
structure CleanOptions (lev : VerificationLevel) (names : List String) (options : Options) : Prop where
  sorted : Sorted options
  clean : ∀ o ∈ options, Clean lev o
  named : ∀ name ∈ "connection" :: names, ∃ v, options.lookup name = some v

theorem CleanOptions.upsert {lev : VerificationLevel} {names : List String} {options : Options}
    (h : CleanOptions lev names options) {name value : String} (hclean : Clean lev (name, value)) :
    CleanOptions lev names (SortedMap.upsert name value options) where
  sorted := h.sorted.upsert name value
  clean o ho := by
    rcases mem_upsert ho with rfl | ho
    · exact hclean
    · exact h.clean o ho
  named name' hname := by
    rw [lookup_upsert]
    split
    · exact ⟨value, rfl⟩
    · exact h.named name' hname

namespace RequestHeader

variable {lev : VerificationLevel}

structure Clean (lev : VerificationLevel) (h : RequestHeader) : Prop where
  uriNe : h.head ≠ ""
  uri : ∀ c ∈ h.head.toList, isSpace c = false
  options : CleanOptions lev ["host", "user-agent"] h.options

theorem headLine_words (h : RequestHeader) :
    h.headLine = "POST".toList ++ [' '] ++ (h.head.toList ++ [' '] ++ "HTTP/1.0".toList) := by
  simp [headLine]

theorem headLine_crlf {h : RequestHeader} (hc : Clean lev h) : ∀ c ∈ h.headLine, isCrlf c = false := by
  have hpost : ∀ c ∈ "POST".toList, isCrlf c = false := not_of_any (by decide)
  have hversion : ∀ c ∈ "HTTP/1.0".toList, isCrlf c = false := not_of_any (by decide)
  intro c hmem
  simp only [headLine_words, List.mem_append, List.mem_singleton] at hmem
  rcases hmem with (hmem | rfl) | (hmem | rfl) | hmem
  · exact hpost c hmem
  · rfl
  · exact not_crlf (hc.uri c hmem)
  · rfl
  · exact hversion c hmem

theorem parse_text {h : RequestHeader} (hc : Clean lev h) :
    parse lev (Header.text h.headLine h.options) = .ok h := by
  have hcrlf := headLine_crlf hc
  have hline := headLine_words h
  obtain ⟨huri, hspace, hsorted, hclean, hnamed⟩ := hc
  have hpost : ∀ c ∈ "POST".toList, isSpace c = false := not_of_any (by decide)
  have hversion : ∀ c ∈ "HTTP/1.0".toList, isSpace c = false := not_of_any (by decide)
  have htokens : splitRuns isSpace h.headLine = ["POST".toList, h.head.toList, "HTTP/1.0".toList] := by
    have hhead : (h.head.toList ++ [' '] ++ "HTTP/1.0".toList).head?.any isSpace = false := by
      cases hlist : h.head.toList with
      | nil => exact absurd (String.toList_eq_nil_iff.mp hlist) huri
      | cons c cs => exact hspace c (by rw [hlist]; exact List.mem_cons_self)
    rw [hline, splitRuns_append hpost (by simp) (by simp [isSpace]) hhead,
      splitRuns_append hspace (by simp) (by simp [isSpace]) (by decide), splitRuns_last hversion]
  obtain ⟨host, hhost⟩ := hnamed "host" (by simp)
  obtain ⟨agent, hagent⟩ := hnamed "user-agent" (by simp)
  rw [parse, Header.parse_text hcrlf hclean hsorted (hnamed "connection" (by simp)), Except.ok_bind]
  simp only [setOptionDefault_of_mem hhost, setOptionDefault_of_mem hagent, htokens, List.head?_cons, ne_eq,
    not_true, if_false, List.getElem?_cons_succ, List.getElem?_cons_zero, Option.getD_some, String.ofList_toList]
  rfl

end RequestHeader

namespace ResponseHeader

variable {lev : VerificationLevel}

structure Clean (lev : VerificationLevel) (h : ResponseHeader) : Prop where
  code : InInt h.head.code
  phrase : ∀ c ∈ h.head.phrase.toList, isCrlf c = false
  noSpace : h.head.phrase.toList.head?.any isSpace = false
  options : CleanOptions lev ["server"] h.options

/-- What the parser keeps of the phrase. -/
def firstWord (phrase : String) : String := String.ofList (phrase.toList.takeWhile fun c => !isSpace c)

theorem headLine_words (h : ResponseHeader) : h.headLine =
    "HTTP/1.1".toList ++ [' '] ++ ((toString h.head.code).toList ++ [' '] ++ h.head.phrase.toList) := by
  have hspaced : "HTTP/1.1 ".toList = "HTTP/1.1".toList ++ [' '] := by decide
  rw [headLine_eq, hspaced]
  simp only [List.append_assoc]

theorem headLine_crlf {h : ResponseHeader} (hc : Clean lev h) : ∀ c ∈ h.headLine, isCrlf c = false := by
  have hversion : ∀ c ∈ "HTTP/1.1".toList, isCrlf c = false := not_of_any (by decide)
  intro c hmem
  simp only [headLine_words, List.mem_append, List.mem_singleton] at hmem
  rcases hmem with (hmem | rfl) | (hmem | rfl) | hmem
  · exact hversion c hmem
  · rfl
  · exact not_crlf (not_space_toString h.head.code c hmem)
  · rfl
  · exact hc.phrase c hmem

theorem parse_text {h : ResponseHeader} (hc : Clean lev h) :
    parse lev (Header.text h.headLine h.options) =
      .ok { h with head := { h.head with phrase := firstWord h.head.phrase } } := by
  have hcrlf := headLine_crlf hc
  have hline := headLine_words h
  obtain ⟨hcode, -, hspace, hsorted, hclean, hnamed⟩ := hc
  have hversion : ∀ c ∈ "HTTP/1.1".toList, isSpace c = false := not_of_any (by decide)
  have hdigits := not_space_toString h.head.code
  obtain ⟨rest, hrest⟩ := splitRuns_head isSpace h.head.phrase.toList
  have htokens : splitRuns isSpace h.headLine = "HTTP/1.1".toList :: (toString h.head.code).toList ::
      (h.head.phrase.toList.takeWhile fun c => !isSpace c) :: rest := by
    have hhead : ((toString h.head.code).toList ++ [' '] ++ h.head.phrase.toList).head?.any isSpace =
        false := by
      cases hlist : (toString h.head.code).toList with
      | nil => exact absurd (String.toList_eq_nil_iff.mp hlist) (toString_ne _)
      | cons c cs => exact hdigits c (by rw [hlist]; exact List.mem_cons_self)
    rw [hline, splitRuns_append hversion (by simp) (by simp [isSpace]) hhead,
      splitRuns_append hdigits (by simp) (by simp [isSpace]) hspace, hrest]
  obtain ⟨server, hserver⟩ := hnamed "server" (by simp)
  rw [parse, Header.parse_text hcrlf hclean hsorted (hnamed "connection" (by simp)), Except.ok_bind]
  simp only [setOptionDefault_of_mem hserver, htokens, String.ofList_toList, lexicalCast_toString hcode,
    List.headD_cons]
  rfl

end ResponseHeader

end DispCalc.Iqxmlrpc
