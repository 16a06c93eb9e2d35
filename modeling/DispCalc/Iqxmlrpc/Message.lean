import DispCalc.Iqxmlrpc.RoundTrip

/-!
# Requests and responses

The two documents of a call: `Request` and `Response`, each written by one side and parsed by the
other.
-/

open SortedMap

namespace DispCalc.Iqxmlrpc

/-- `Param_list` is a vector of values. -/
structure Request (δ : Type) where
  name : String
  params : List (Value δ)

/-- A response holds a value, or the code and the text of a fault. -/
inductive Response (δ : Type) where
  | ok (value : Value δ)
  | fault (faultCode : IntValue) (faultString : String)

variable {δ : Type}

/-- `Response::value()`. -/
def Response.value : Response δ → Except Exception (Value δ)
  | ok value => .ok value
  | fault faultCode faultString => .error ⟨faultString, faultCode⟩

/-- The struct that stands for a fault. -/
def faultValue (faultCode : IntValue) (faultString : String) : Value δ :=
  .struct (upsert "faultString" (.string faultString) (upsert "faultCode" (.int faultCode) []))

theorem faultValue_eq (faultCode : IntValue) (faultString : String) :
    (faultValue faultCode faultString : Value δ) =
      .struct [("faultCode", .int faultCode), ("faultString", .string faultString)] := by
  unfold faultValue
  rw [upsert, upsert, if_neg (by decide), if_neg (by decide), upsert]

variable [StdText δ]

def paramToXml (v : Value δ) : Node := element "param" [v.toXml]

def Request.toXml (r : Request δ) : Node :=
  element "methodCall" [leaf "methodName" r.name, element "params" (r.params.map paramToXml)]

def Response.toXml : Response δ → Node
  | .ok value => element "methodResponse" [element "params" [paramToXml value]]
  | .fault faultCode faultString =>
    element "methodResponse" [element "fault" [(faultValue faultCode faultString : Value δ).toXml]]

/-! ## Parsing -/

def parseName (node : Node) : Except Failure String :=
  if node.getName ≠ "methodName" then throwAt node
  else
    match node.getChildren with
    | [.text _ content] => .ok content
    | _ => throwAt node

def parseParam (node : Node) : Except Failure (Value δ) :=
  if node.getName ≠ "param" then throwAt node else singleElement node >>= parseValue

def parseParams (node : Node) : Except Failure (List (Value δ)) :=
  if node.getName ≠ "params" then throwAt node
  else do
    let childs ← elementsOnly node
    childs.mapM parseParam

/-- `Request::parse`, of the root of a document. -/
def Request.parse (node : Node) : Except Failure (Request δ) :=
  if node.getName ≠ "methodCall" then throwAt node
  else do
    match ← elementsOnly node with
    | [front, back] => do
      let name ← parseName front
      return ⟨name, ← parseParams back⟩
    | _ => throwAt node

def malformedFault {α : Type} : Except Failure α :=
  throwCaused "malformed structure of fault response." none

/-- An exception of a value leaves the parser as it is. -/
def rethrow {α : Type} (x : Except Exception α) : Except Failure α := x.mapError .exception

def parseFault (node : Node) : Except Failure (Response δ) := do
  let fault : Value δ ← singleElement node >>= parseValue
  if !(← rethrow (fault.hasField "faultCode")) then malformedFault
  else if !(← rethrow (fault.hasField "faultString")) then malformedFault
  else
    match ← rethrow (fault.field "faultCode"), ← rethrow (fault.field "faultString") with
    | .int faultCode, .string faultString => return .fault faultCode faultString
    | _, _ => malformedFault

/-- `Response::parse` does not look at the name of the root. -/
def Response.parse (node : Node) : Except Failure (Response δ) := do
  let n ← singleElement node
  if n.getName = "params" then
    let param ← singleElement n
    return .ok (← parseParam param)
  else if n.getName = "fault" then parseFault n
  else throwAt n

/-! ## Round trips -/

theorem element_ne_text {name : String} {ns : List Node} (l : Nat) (s : String) :
    element name ns ≠ .text l s := nofun

theorem formatted_single {name : String} {child : Node} {n : Node}
    (h : Formatted (element name [child]) n) (hchild : ∀ l s, child ≠ .text l s) :
    ∃ el, n.getName = name ∧ singleElement n = .ok el ∧ Formatted child el := by
  obtain ⟨line, els, hname, -, hels, hall⟩ := Formatted.of_elements h (by simpa using hchild)
  rcases hall with _ | ⟨hel, ⟨⟩⟩
  exact ⟨_, hname, singleElement_of hels, hel⟩

theorem parseParam_param {v : Value δ} (hv : v.Sendable) {n : Node} (h : Formatted (paramToXml v) n) :
    parseParam n = .ok v := by
  obtain ⟨el, hname, hel, hformatted⟩ := formatted_single h element_ne_text
  rw [parseParam, if_neg (by simp [hname]), hel, Except.ok_bind, parseValue_toXml hv hformatted]

theorem parseName_leaf {s : String} (hs : s ≠ "") {n : Node} (h : Formatted (leaf "methodName" s) n) :
    parseName n = .ok s := by
  obtain ⟨line, l, rfl⟩ := h.of_leaf
  rw [if_neg hs]
  rfl

theorem mapM_parseParam {params : List (Value δ)} (hv : ∀ v ∈ params, v.Sendable) {els : List Node}
    (h : List.Forall₂ Formatted (params.map paramToXml) els) : els.mapM parseParam = .ok params := by
  induction params generalizing els with
  | nil =>
    cases h
    rfl
  | cons v params ih =>
    rcases h with _ | ⟨hel, hrest⟩
    rw [List.mapM_cons, parseParam_param (hv v List.mem_cons_self) hel, Except.ok_bind,
      ih (fun u hu => hv u (List.mem_cons_of_mem _ hu)) hrest]
    rfl

def Request.Sendable (r : Request δ) : Prop := r.name ≠ "" ∧ ∀ v ∈ r.params, v.Sendable

theorem Request.parse_toXml {r : Request δ} (hr : r.Sendable) {n : Node} (h : Formatted r.toXml n) :
    Request.parse n = .ok r := by
  obtain ⟨line, els, hname, -, hels, hall⟩ := Formatted.of_elements h (by simp)
  rcases hall with _ | ⟨hfront, _ | ⟨hback, ⟨⟩⟩⟩
  have hne : ∀ l s, r.params.map paramToXml ≠ [.text l s] := by
    intro l s heq
    rcases hp : r.params with _ | ⟨v, vs⟩ <;> rw [hp] at heq <;> cases heq
  obtain ⟨line', els', hpname, -, hels', hall'⟩ := Formatted.of_elements hback hne
  rw [Request.parse, if_neg (by simp [hname]), hels, Except.ok_bind]
  simp only [parseName_leaf hr.1 hfront, Except.ok_bind, parseParams, hpname, ne_eq, not_true, if_false, hels',
    mapM_parseParam hr.2 hall']
  rfl

theorem sendable_faultValue (faultCode : IntValue) (faultString : String) :
    (faultValue faultCode faultString : Value δ).Sendable := by
  have hsorted : ["faultCode", "faultString"].Pairwise (· < ·) := by decide
  have hcode : isBlank "faultCode" = false := by decide
  have hstring : isBlank "faultString" = false := by decide
  rw [faultValue_eq]
  refine .struct hsorted ?_ ?_
  · intro e he
    rcases List.mem_pair.mp he with rfl | rfl
    · exact hcode
    · exact hstring
  · intro e he
    rcases List.mem_pair.mp he with rfl | rfl
    · exact .int _
    · exact .string _

theorem parseFault_fault (faultCode : IntValue) (faultString : String) {n : Node}
    (h : Formatted (element "fault" [(faultValue faultCode faultString : Value δ).toXml]) n) :
    parseFault n = .ok (.fault faultCode faultString : Response δ) := by
  obtain ⟨el, -, hel, hformatted⟩ := formatted_single h element_ne_text
  have hvalue := parseValue_toXml (sendable_faultValue faultCode faultString) hformatted
  rw [faultValue_eq] at hvalue
  rw [parseFault, hel, Except.ok_bind, hvalue]
  rfl

def Response.Sendable : Response δ → Prop
  | .ok value => value.Sendable
  | .fault _ _ => True

theorem Response.parse_toXml {r : Response δ} (hr : r.Sendable) {n : Node} (h : Formatted r.toXml n) :
    Response.parse n = .ok r := by
  cases r with
  | ok value =>
    rw [Response.toXml] at h
    obtain ⟨params, -, hparams, hformatted⟩ := formatted_single h element_ne_text
    obtain ⟨param, hname, hparam, hformatted⟩ := formatted_single hformatted element_ne_text
    have hvalue := parseParam_param hr hformatted
    simp only [Response.parse, hparams, Except.ok_bind, hname, if_true, hparam, hvalue]
    rfl
  | fault faultCode faultString =>
    rw [Response.toXml] at h
    obtain ⟨fault, -, hfault, hformatted⟩ := formatted_single h element_ne_text
    obtain ⟨line, children, heq⟩ := hformatted.element_right
    have hname : fault.getName = "fault" := by rw [heq]; rfl
    have hparse := parseFault_fault faultCode faultString hformatted
    simp only [Response.parse, hfault, Except.ok_bind, hname, if_neg (show ¬ "fault" = "params" by decide),
      if_true, hparse]

/-! ## What is accepted -/

theorem parseParam_sendable [LawfulDoubleText δ] {n : Node} {v : Value δ} (h : parseParam n = .ok v) :
    v.Sendable := by
  rw [parseParam] at h
  split at h
  · cases h
  · obtain ⟨el, -, h⟩ := Except.bind_eq_ok.mp h
    exact (sendable_of_parse el).1 v h

theorem parseName_empty {n : Node} (h : Formatted (leaf "methodName" "") n) {name : String} :
    parseName n ≠ .ok name := by
  obtain ⟨line, l, rfl⟩ := h.of_leaf
  rw [if_pos rfl]
  nofun

theorem Request.parse_eq_ok {n : Node} {r : Request δ} (h : Request.parse n = .ok r) :
    ∃ front back, elementsOnly n = .ok [front, back] ∧ parseName front = .ok r.name ∧
      parseParams back = .ok r.params := by
  rw [Request.parse] at h
  split at h
  · cases h
  · obtain ⟨els, hels, h⟩ := Except.bind_eq_ok.mp h
    split at h
    · obtain ⟨name, hname, h⟩ := Except.bind_eq_ok.mp h
      obtain ⟨params, hparams, h⟩ := Except.bind_eq_ok.mp h
      obtain rfl := Except.ok.inj h
      exact ⟨_, _, hels, hname, hparams⟩
    · cases h

theorem parseParams_sendable [LawfulDoubleText δ] {n : Node} {params : List (Value δ)}
    (h : parseParams n = .ok params) : ∀ v ∈ params, v.Sendable := by
  rw [parseParams] at h
  split at h
  · cases h
  · obtain ⟨childs, -, h⟩ := Except.bind_eq_ok.mp h
    exact mapM_forall (fun _ _ _ hb => parseParam_sendable hb) h

/-- **A request comes back from its document, however it is formatted, exactly when it has a name
and its parameters are sendable.** -/
theorem request_round_trip_iff [LawfulDoubleText δ] (r : Request δ) {n : Node} (h : Formatted r.toXml n) :
    Request.parse n = .ok r ↔ r.name ≠ "" ∧ ∀ v ∈ r.params, v.Sendable := by
  refine ⟨fun hparse => ?_, fun hr => Request.parse_toXml hr h⟩
  obtain ⟨front, back, hels, hname, hparams⟩ := Request.parse_eq_ok hparse
  refine ⟨fun hempty => ?_, parseParams_sendable hparams⟩
  obtain ⟨-, els, -, -, hels', hall⟩ := Formatted.of_elements h (by simp)
  obtain rfl := Except.ok.inj (hels'.symm.trans hels)
  rcases hall with _ | ⟨hfront, -⟩
  rw [hempty] at hfront
  exact parseName_empty hfront hname

theorem request_round_trip_iff_half :
    Request.parse (.element 1 "methodCall" [.text 1 "\n", .element 2 "methodName" [.text 2 "m"],
      .element 3 "params" [.element 3 "param" [.element 3 "value" [.element 3 "double" [.text 3 "0.5"]]]]]) =
        .ok (⟨"m", [.double ()]⟩ : Request Unit) ↔
      "m" ≠ "" ∧ ∀ v ∈ [Value.double ()], v.Sendable :=
  request_round_trip_iff ⟨"m", [.double ()]⟩ (.elements (.blank rfl (.child (.text (by decide))
    (.child (.elements (.child (.elements (.child (.elements (.child (.text (by decide)) .nil)) .nil)) .nil)) .nil))))

/-- **A response comes back from its document exactly when it is a fault or its value is sendable.** -/
theorem response_round_trip_iff [LawfulDoubleText δ] (r : Response δ) {n : Node} (h : Formatted r.toXml n) :
    Response.parse n = .ok r ↔ ∀ value, r = .ok value → value.Sendable := by
  constructor
  · rintro hparse value rfl
    rw [Response.toXml] at h
    obtain ⟨params, -, hparams, hformatted⟩ := formatted_single h element_ne_text
    obtain ⟨param, hname, hparam, -⟩ := formatted_single hformatted element_ne_text
    simp only [Response.parse, hparams, Except.ok_bind, hname, if_true, hparam] at hparse
    obtain ⟨v, hv, hparse⟩ := Except.bind_eq_ok.mp hparse
    obtain rfl := Response.ok.inj (Except.ok.inj hparse)
    exact parseParam_sendable hv
  · intro hr
    refine Response.parse_toXml ?_ h
    cases r with
    | ok value => exact hr value rfl
    | fault faultCode faultString => trivial

theorem response_round_trip_iff_half :
    Response.parse (.element 1 "methodResponse" [.text 1 "\n", .element 2 "params" [.element 2 "param"
      [.element 2 "value" [.element 2 "double" [.text 2 "0.5"]]]]]) = .ok (.ok (.double ()) : Response Unit) ↔
      ∀ value, Response.ok (.double ()) = .ok value → value.Sendable :=
  response_round_trip_iff (.ok (.double ())) (.elements (.blank rfl (.child (.elements (.child
    (.elements (.child (.elements (.child (.text (by decide)) .nil)) .nil)) .nil)) .nil)))

end DispCalc.Iqxmlrpc
