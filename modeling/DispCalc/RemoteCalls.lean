import DispCalc.Iqxmlrpc.Answering
import DispCalc.RemoteMethods
import DispCalc.Supervisor.Code

/-!
# Calls of the methods

A task calls `ServerMethodCompute` on a server. What it gets, if it gets a response, is what the
method computes from its own tokens.
-/

open Runs

namespace DispCalc

open Iqxmlrpc

/-! ## Documents as texts -/

/-- The XML library: `write_to_string_formatted`, and `parse_memory` with the root that it finds or
the `what()` of its exception. -/
structure XmlLibrary where
  write : Node → List Char
  read : List Char → Except String Node

namespace XmlLibrary

/-- The document is read as it was written. -/
def Reads (xml : XmlLibrary) (n : Node) : Prop := ∃ n', xml.read (xml.write n) = .ok n' ∧ Formatted n n'

/-- `parse_request` and `parse_response`. -/
def parse {α : Type} (xml : XmlLibrary) (parse : Node → Except Failure α) (content : List Char) :
    Except Failure α :=
  match xml.read content with
  | .error what => .error (.exception (.parseError what))
  | .ok root => parse root

end XmlLibrary

variable {δ : Type} [StdText δ]

/-! ## The server -/

/-- What the server executes for a request. Where the parser has no defined result, nothing is. -/
inductive Execution (δ : Type) where
  | method (m : RemoteMethod) (params : List (Value δ))
  | undefined

section Server

variable (xml : XmlLibrary)

/-- The response to an exception of `schedule_execute`. -/
def errorText (δ : Type) [StdText δ] (e : Exception) : List Char :=
  xml.write (Response.fault e.code e.what : Response δ).toXml

def createMethod (content : List Char) : Except (List Char) (Execution δ) :=
  match xml.parse Iqxmlrpc.Request.parse content with
  | .error (.exception e) => .error (errorText xml δ e)
  | .error .undefined => .ok .undefined
  | .ok r =>
    match RemoteMethod.create r.name with
    | .error e => .error (errorText xml δ e)
    | .ok m => .ok (.method m r.params)

/-- `initServer`. -/
def serverConfig (δ : Type) [StdText δ] (package : String) : ServerConfig (Execution δ) where
  maxReqSz := 1024 * 1024
  package
  createMethod := createMethod xml

/-- The responses that an execution may make, with the status table that it finds. -/
def Serves : Execution δ → List Char → Prop
  | .method m params, body => ∃ table r, (m.response params table).1 = some r ∧ body = xml.write r.toXml
  | .undefined, _ => False

end Server

/-! ## The client -/

namespace ClientControllerTask

/-- `createParamList`, in the thread `threadId`. -/
def createParamList (expr : List String) (threadId : String) : List (Value δ) :=
  [.array (expr.map .string), .struct (SortedMap.upsert "id" (.string threadId) [])]

/-- The request of `run`. -/
def request (δ : Type) (expr : List String) (threadId : String) : Iqxmlrpc.Request δ where
  name := "ServerMethodCompute"
  params := createParamList expr threadId

/-- How `run` ends: with an `int`, or in one of its `catch` clauses. -/
def outcome (xml : XmlLibrary) (δ : Type) [StdText δ] :
    Except ClientFault (Packet Status) → Option (Except Ending IntValue)
  | .error .networkError => some (.error .networkError)
  | .error _ => some (.error .otherError)
  | .ok p =>
    if p.header.head.code ≠ 200 then some (.error .otherError)
    else
      match xml.parse Response.parse p.content >>= fun r : Response δ => rethrow (r.value >>= Value.getInt) with
      | .ok v => some (.ok v)
      | .error (.exception _) => some (.error .otherError)
      | .error .undefined => none

end ClientControllerTask

/-- The packet that `client_` sends for a request, on port 8000 of a host. -/
def callTo (xml : XmlLibrary) (package host : String) (r : Iqxmlrpc.Request δ) : Iqxmlrpc.Call where
  agent := package
  uri := "/RPC"
  vhost := host
  port := 8000
  content := xml.write r.toXml

/-! ## From the tokens to the result -/

namespace ClientControllerTask

open ServerMethodCompute (answer params)

theorem request_sendable (expr : List String) (threadId : String) : (request δ expr threadId).Sendable := by
  refine ⟨show "ServerMethodCompute" ≠ "" by decide, fun v hv => ?_⟩
  rcases List.mem_pair.mp hv with rfl | rfl
  · refine .array fun u hu => ?_
    obtain ⟨s, -, rfl⟩ := List.mem_map.mp hu
    exact .string s
  · have hid : isBlank "id" = false := by decide
    refine .struct (List.pairwise_singleton _ _) ?_ ?_
    · intro e he
      obtain rfl := List.mem_singleton.mp he
      exact hid
    · intro e he
      obtain rfl := List.mem_singleton.mp he
      exact .string threadId

variable {xml : XmlLibrary} {expr : List String} {threadId : String}

theorem createMethod_request (hreads : xml.Reads (request δ expr threadId).toXml) :
    createMethod xml (xml.write (request δ expr threadId).toXml) =
      .ok (.method .compute (params expr threadId : List (Value δ))) := by
  obtain ⟨n, hn, hformatted⟩ := hreads
  have hparse : xml.parse Iqxmlrpc.Request.parse (xml.write (request δ expr threadId).toXml) =
      .ok (request δ expr threadId) := by
    rw [XmlLibrary.parse, hn]
    exact Iqxmlrpc.Request.parse_toXml (request_sendable expr threadId) hformatted
  rw [createMethod, hparse]
  rfl

theorem outcome_response {p : Packet Status} {r : Response δ} (hcode : p.header.head.code = 200)
    (hcontent : p.content = xml.write r.toXml) (hr : r.Sendable) (hreads : xml.Reads r.toXml) :
    outcome xml δ (.ok p) = match r with
      | .ok (.int v) => some (.ok v)
      | _ => some (.error .otherError) := by
  obtain ⟨n, hn, hformatted⟩ := hreads
  have hparse : xml.parse Response.parse p.content = .ok r := by
    rw [hcontent, XmlLibrary.parse, hn]
    exact Response.parse_toXml hr hformatted
  simp only [outcome, hcode, ne_eq, not_true, if_false, hparse, Except.ok_bind]
  rcases r with v | ⟨faultCode, faultString⟩
  · cases v <;> rfl
  · rfl

theorem outcome_proper {p : Packet Status} {package : String} (hcode : p.header.head.code = 200)
    (hrequest : xml.Reads (request δ expr threadId).toXml)
    (hproper : Proper (serverConfig xml δ package) (Serves xml) (xml.write (request δ expr threadId).toXml) p.content)
    (hvalue : ∀ v : IntValue, answer expr = .ok v.1 → xml.Reads (Response.ok (.int v) : Response δ).toXml)
    (hfault : ∀ i, answer expr = .error (i, .badLexicalCast) →
      xml.Reads (Response.fault ⟨-1, by decide⟩ badLexicalCast : Response δ).toXml) :
    (∃ v : IntValue, answer expr = .ok v.1 ∧ outcome xml δ (.ok p) = some (.ok v)) ∨
      ((∃ i, answer expr = .error (i, .badLexicalCast)) ∧ outcome xml δ (.ok p) = some (.error .otherError)) := by
  have hmethod : (serverConfig xml δ package).createMethod (xml.write (request δ expr threadId).toXml) =
      .ok (.method .compute (params expr threadId)) := createMethod_request hrequest
  rw [Proper, hmethod] at hproper
  obtain ⟨table, r, hr, hcontent⟩ := hproper
  rcases hanswer : answer expr with ⟨i, f⟩ | v
  · rw [ServerMethodCompute.response_of_fault hanswer] at hr
    split at hr
    · rename_i hf
      subst hf
      obtain rfl := Option.some.inj hr
      exact Or.inr ⟨⟨i, rfl⟩, outcome_response hcode hcontent trivial (hfault i hanswer)⟩
    · cases hr
  · rw [ServerMethodCompute.response_of_value hanswer] at hr
    obtain rfl := Option.some.inj hr
    exact Or.inl ⟨⟨v, ServerMethodCompute.answer_inInt hanswer⟩, rfl,
      outcome_response hcode hcontent (.int _) (hvalue _ hanswer)⟩

theorem outcome_of_kept {package host : String} {n : Network (Execution δ)}
    (h : Network.Kept (serverConfig xml δ package) (Serves xml) n)
    {i : Nat} {result : Except ClientFault (Packet Status)} {up down : List Char}
    (hl : n.links[i]? =
      some ⟨.client (callTo xml package host (request δ expr threadId)) (.returned result), up, down⟩)
    (hacc : (callTo xml package host (request δ expr threadId)).Accepted (serverConfig xml δ package).maxReqSz)
    (hrequest : xml.Reads (request δ expr threadId).toXml)
    (hvalue : ∀ v : IntValue, answer expr = .ok v.1 → xml.Reads (Response.ok (.int v) : Response δ).toXml)
    (hfault : ∀ i, answer expr = .error (i, .badLexicalCast) →
      xml.Reads (Response.fault ⟨-1, by decide⟩ badLexicalCast : Response δ).toXml) (v : IntValue) :
    outcome xml δ result = some (.ok v) ↔ (∃ p, result = .ok p) ∧ answer expr = .ok v.1 := by
  rcases result with fault | p
  · have hfailed : ∃ ending, outcome xml δ (.error fault) = some (.error ending) := by
      cases fault <;> exact ⟨_, rfl⟩
    obtain ⟨ending, hending⟩ := hfailed
    rw [hending]
    simp
  · obtain ⟨hcode, hproper⟩ := h.own hl hacc
    rcases outcome_proper hcode hrequest hproper hvalue hfault with ⟨u, hanswer, hout⟩ | ⟨⟨k, hanswer⟩, hout⟩
    · simp [hout, hanswer, Subtype.ext_iff]
    · simp [hout, hanswer]

/-- **A task gets what the method computes.** Any number of clients and strangers use the server at
the same time. When the call of a task is over, its `run` ends with an `int` exactly if a response
has come and the method computes a number from the task's tokens, and then with that number. -/
theorem outcome_ok_iff {package host : String} {lev : Nat → VerificationLevel} {n : Network (Execution δ)}
    (h : Reaches (Network.step (serverConfig xml δ package) lev)
      (Network.Allowed (serverConfig xml δ package) (Serves xml)) {} n)
    {i : Nat} {result : Except ClientFault (Packet Status)} {up down : List Char}
    (hl : n.links[i]? =
      some ⟨.client (callTo xml package host (request δ expr threadId)) (.returned result), up, down⟩)
    (hacc : (callTo xml package host (request δ expr threadId)).Accepted (serverConfig xml δ package).maxReqSz)
    (hrequest : xml.Reads (request δ expr threadId).toXml)
    (hvalue : ∀ v : IntValue, answer expr = .ok v.1 → xml.Reads (Response.ok (.int v) : Response δ).toXml)
    (hfault : ∀ i, answer expr = .error (i, .badLexicalCast) →
      xml.Reads (Response.fault ⟨-1, by decide⟩ badLexicalCast : Response δ).toXml) (v : IntValue) :
    outcome xml δ result = some (.ok v) ↔ (∃ p, result = .ok p) ∧ answer expr = .ok v.1 :=
  outcome_of_kept (Network.kept_of_reaches h) hl hacc hrequest hvalue hfault v

end ClientControllerTask

/-! ## A library for a few documents -/

namespace XmlLibrary

/-- The text of an element that has nothing else. -/
def textOf : List Node → Option String
  | [.text _ s] => some s
  | _ => none

mutual

/-- The lines of an element, without characters to escape. -/
def writeNode (indent : Nat) : Node → List Char
  | .element _ name ns =>
    let start := List.replicate indent ' ' ++ "<".toList ++ name.toList
    let close := "</".toList ++ name.toList ++ ">\n".toList
    match textOf ns with
    | some s => start ++ ">".toList ++ s.toList ++ close
    | none =>
      if ns.isEmpty then start ++ "/>\n".toList
      else start ++ ">\n".toList ++ writeNodes (indent + 2) ns ++ List.replicate indent ' ' ++ close
  | _ => []

def writeNodes (indent : Nat) : List Node → List Char
  | [] => []
  | n :: ns => writeNode indent n ++ writeNodes indent ns

end

def writeDocument (n : Node) : List Char := "<?xml version=\"1.0\" encoding=\"UTF-8\"?>\n".toList ++ writeNode 0 n

mutual

/-- The element as it is read from a line on, and the next line. -/
def readNode (line : Nat) : Node → Node × Nat
  | .element _ name ns =>
    match textOf ns with
    | some s => (.element line name (if s = "" then [] else [.text line s]), line + 1)
    | none =>
      if ns.isEmpty then (.element line name [], line + 1)
      else
        let (ns, next) := readNodes (line + 1) ns
        (.element line name (.text line "\n" :: ns), next + 1)
  | n => (n, line)

def readNodes (line : Nat) : List Node → List Node × Nat
  | [] => ([], line)
  | n :: ns =>
    let (n, next) := readNode line n
    let (ns, next) := readNodes next ns
    (n :: .text next "\n" :: ns, next)

end

mutual

/-- Only elements, and texts that have their element to themselves. -/
def plain : Node → Bool
  | .element _ _ ns => (textOf ns).isSome || plains ns
  | _ => false

def plains : List Node → Bool
  | [] => true
  | n :: ns => plain n && plains ns

end

/-- The library as it works on the documents of a list. -/
def ofDocuments (docs : List Node) : XmlLibrary where
  write := writeDocument
  read content :=
    match docs.find? fun n => decide (writeDocument n = content) with
    | some n => .ok (readNode 2 n).1
    | none => .error "Document is empty"

theorem textOf_eq {ns : List Node} {s : String} (h : textOf ns = some s) : ∃ l, ns = [.text l s] := by
  unfold textOf at h
  split at h
  · obtain rfl := Option.some.inj h
    exact ⟨_, rfl⟩
  · cases h

mutual

theorem formatted_readNode (line : Nat) : ∀ n : Node, plain n = true → Formatted n (readNode line n).1
  | .element l name ns, h => by
    rw [readNode]
    rcases htext : textOf ns with _ | s
    · have hplains : plains ns = true := by
        simpa [plain, htext] using h
      simp only
      split
      · rename_i hempty
        rw [List.isEmpty_iff.mp hempty]
        exact .elements .nil
      · exact .elements (.blank (by decide) (spaced_readNodes (line + 1) ns hplains))
    · obtain ⟨l', rfl⟩ := textOf_eq htext
      simp only
      split
      · rename_i hempty
        subst hempty
        exact .empty
      · rename_i hne
        exact .text hne
  | .text _ _, h => by simp [plain] at h
  | .other _ _, h => by simp [plain] at h

theorem spaced_readNodes (line : Nat) : ∀ ns : List Node, plains ns = true →
    Spaced Formatted ns (readNodes line ns).1
  | [], _ => .nil
  | n :: ns, h => by
    obtain ⟨hn, hns⟩ : plain n = true ∧ plains ns = true := by
      simpa [plains] using h
    exact .child (formatted_readNode line n hn) (.blank (by decide) (spaced_readNodes _ ns hns))

end

theorem reads_of_mem {docs : List Node} {n : Node} (hmem : n ∈ docs) (hplain : plain n = true)
    (hone : ∀ m ∈ docs, writeDocument m = writeDocument n → m = n) : (ofDocuments docs).Reads n := by
  refine ⟨(readNode 2 n).1, ?_, formatted_readNode 2 n hplain⟩
  simp only [ofDocuments]
  split
  · rename_i m hm
    have htext := List.find?_some hm
    rw [hone m (List.mem_of_find?_eq_some hm) (of_decide_eq_true htext)]
  · rename_i hnone
    simpa using List.find?_eq_none.mp hnone n hmem

end XmlLibrary

namespace ClientControllerTask

open ServerMethodCompute (answer params)

theorem inInt_two : InInt 2 := by decide

/-- The documents of two tasks for `1 + 1`. -/
def sumRequest (c : Nat) : Node := (request Unit ["1", "1", "ADD"] (toString c)).toXml

def sumResponse : Node := (Response.ok (.int ⟨2, inInt_two⟩) : Response Unit).toXml

def sumDocuments : List Node := [sumRequest 7, sumRequest 8, sumResponse]

def sumXml : XmlLibrary := .ofDocuments sumDocuments

/-- Each task has a server of its own. -/
def sumHost (c : Nat) : String := if c = 7 then "localhost" else "remote"

def sumCall (c : Nat) : Iqxmlrpc.Call := callTo sumXml "p" (sumHost c) (request Unit ["1", "1", "ADD"] (toString c))

def sumConfig : ServerConfig (Execution Unit) := serverConfig sumXml Unit "p"

theorem sum_documents : (sumDocuments.map XmlLibrary.writeDocument).Nodup := by decide +kernel

theorem sum_reads {n : Node} (h : n ∈ sumDocuments) : sumXml.Reads n := by
  have hplain : ∀ n ∈ sumDocuments, XmlLibrary.plain n = true := by decide +kernel
  exact XmlLibrary.reads_of_mem h (hplain n h) fun m hm htext =>
    List.inj_on_of_nodup_map sum_documents hm h htext

variable {c : Nat} (hc : c = 7 ∨ c = 8)

section Tasks

include hc

theorem sum_request : sumXml.Reads (sumRequest c) := by
  rcases hc with rfl | rfl
  · exact sum_reads List.mem_cons_self
  · exact sum_reads (List.mem_cons_of_mem _ List.mem_cons_self)

theorem sum_accepted : (sumCall c).Accepted sumConfig.maxReqSz := by
  rcases hc with rfl | rfl
  all_goals
    exact ⟨by decide, not_of_any (by decide), .of_not_space (by decide), .of_not_space (by decide),
      by decide +kernel, fun _ => ⟨by decide +kernel, by decide⟩⟩

theorem sum_content : (sumCall c).content = XmlLibrary.writeDocument (sumRequest c) := by
  rcases hc with rfl | rfl <;> rfl

theorem sum_createMethod : sumConfig.createMethod (XmlLibrary.writeDocument (sumRequest c)) =
    .ok (.method .compute (params ["1", "1", "ADD"] (toString c) : List (Value Unit))) := by
  have hmethod := createMethod_request (sum_request hc)
  simp only [sumXml, XmlLibrary.ofDocuments] at hmethod
  simp only [sumConfig, serverConfig, sumXml, XmlLibrary.ofDocuments]
  exact hmethod

end Tasks

theorem sum_answerable {body : List Char} (h : body.length < 2 ^ 32) : Answerable "p" "now" body :=
  ⟨.of_not_space (by decide), .of_not_space (by decide), h⟩

theorem sum_faults (content fault : List Char) (h : sumConfig.createMethod content = .error fault) :
    Answerable "p" "now" fault := by
  have hcreate : sumConfig.createMethod content = createMethod sumXml content := rfl
  have hread : sumXml.read content = match sumDocuments.find? fun n =>
      decide (XmlLibrary.writeDocument n = content) with
    | some n => .ok (XmlLibrary.readNode 2 n).1
    | none => .error "Document is empty" := rfl
  rcases hfind : sumDocuments.find? fun n => decide (XmlLibrary.writeDocument n = content) with _ | n
  · rw [hfind] at hread
    rw [hcreate, createMethod, XmlLibrary.parse, hread] at h
    rw [← Except.error.inj h]
    exact sum_answerable (by decide +kernel)
  · have htext : XmlLibrary.writeDocument n = content := by simpa using List.find?_some hfind
    have hmem : n = sumRequest 7 ∨ n = sumRequest 8 ∨ n = sumResponse := by
      simpa [sumDocuments] using List.mem_of_find?_eq_some hfind
    rcases hmem with rfl | rfl | rfl
    · rw [← htext, sum_createMethod (Or.inl rfl)] at h
      cases h
    · rw [← htext, sum_createMethod (Or.inr rfl)] at h
      cases h
    · rw [hfind] at hread
      have hparse : (Iqxmlrpc.Request.parse (XmlLibrary.readNode 2 sumResponse).1 :
          Except Failure (Iqxmlrpc.Request Unit)) = .error (.exception (.atNode 2)) := rfl
      rw [hcreate, createMethod, XmlLibrary.parse, hread] at h
      simp only [hparse] at h
      rw [← Except.error.inj h]
      exact sum_answerable (by decide +kernel)

/-- A task has opened its connection, and the server has a thread. -/
def sumStart (c : Nat) : List Network.Event :=
  [.connect (some (sumCall c)), .server .accept, .server (.addThreads 1)]

/-- Neither a handler is called nor a method executed. -/
def opens : Network.Event → Bool
  | .server (.dispatch _ _ _) | .server (.finish _ _ _) => false
  | _ => true

theorem reaches_of_opens {n : Network (Execution Unit)}
    (h : play (Network.step sumConfig fun _ => .strict) (fun _ => opens) {} (sumStart c) = some n) :
    Reaches (Network.step sumConfig fun _ => .strict) (Network.Allowed sumConfig (Serves sumXml)) {} n := by
  refine (reaches_of_play h).weaken fun n e he => ?_
  rcases e with c | ⟨i, e⟩ | e
  · trivial
  · trivial
  · cases e with
    | dispatch io date notified => cases he
    | finish t body date => cases he
    | _ => trivial

theorem sum_waits (c : Nat) :
    ∃ n, play (Network.step sumConfig fun _ => .strict) (fun _ => opens) {} (sumStart c) = some n ∧
      n.links[0]? = some (Network.opened (some (sumCall c))) ∧ n.server.pool.threads = [.free] ∧
        n.server.pool.reqQueue = [] ∧ n.serverClosed 0 = false := ⟨_, rfl, rfl, rfl, rfl, rfl⟩

theorem answer_sum : answer ["1", "1", "ADD"] = .ok 2 := rfl

theorem sum_value (v : IntValue) (hv : answer ["1", "1", "ADD"] = .ok v.1) :
    sumXml.Reads (Response.ok (.int v) : Response Unit).toXml := by
  obtain rfl : v = ⟨2, inInt_two⟩ := Subtype.ext (Except.ok.inj (hv.symm.trans answer_sum))
  exact sum_reads (by simp [sumDocuments, sumResponse])

theorem sum_fault (i : Nat) (hi : answer ["1", "1", "ADD"] = .error (i, .badLexicalCast)) :
    sumXml.Reads (Response.fault ⟨-1, by decide⟩ badLexicalCast : Response Unit).toXml := by
  cases answer_sum.symm.trans hi

include hc in
theorem sum_answered {n₀ : Network (Execution Unit)}
    (hplay : play (Network.step sumConfig fun _ => .strict) (fun _ => opens) {} (sumStart c) = some n₀) :
    ∃ n p up down,
      Reaches (Network.step sumConfig fun _ => .strict) (Network.Allowed sumConfig (Serves sumXml)) n₀ n ∧
      n.links[0]? = some ⟨.client (sumCall c) (.returned (.ok p)), up, down⟩ := by
  have hrun := reaches_of_opens hplay
  obtain ⟨n₁, hplay₁, hlink, hthreads, hqueue, hclosed⟩ := sum_waits c
  obtain rfl := Option.some.inj (hplay.symm.trans hplay₁)
  have hbodies : ∀ m, sumConfig.createMethod (sumCall c).content = .ok m →
      Network.Responds sumConfig (Serves sumXml) "now" m := by
    intro m hm
    rw [sum_content hc, sum_createMethod hc] at hm
    obtain rfl := Except.ok.inj hm
    have hresponse := ServerMethodCompute.response_of_value (δ := Unit) answer_sum (toString c) fun _ => none
    have hlen : (sumXml.write sumResponse).length < 2 ^ 32 := by decide +kernel
    exact ⟨sumXml.write sumResponse, ⟨_, _, hresponse, rfl⟩, sum_answerable hlen⟩
  have hheld : n₀.server.pool.held = [] := by
    simp [PoolExecutorFactory.held, PoolExecutorFactory.executed, PoolExecutorFactory.executing, hthreads, hqueue]
  have hable : Network.Able sumConfig (Serves sumXml) "now" n₀ :=
    Network.able_of_reaches hrun (by simp [hthreads]) (by simp [hheld])
  obtain ⟨n, p, up, down, hanswered, hl⟩ := hable.answered (fun _ => .strict) hlink (sum_accepted hc) rfl hclosed
    (fun request fault _ => sum_faults request fault) hbodies
  exact ⟨n, p, up, down, hanswered.weaken fun _ _ hok => hok.1, hl⟩

include hc in
theorem sum_outcome {n₀ : Network (Execution Unit)}
    (hplay : play (Network.step sumConfig fun _ => .strict) (fun _ => opens) {} (sumStart c) = some n₀) :
    ∃ n p up down,
      Reaches (Network.step sumConfig fun _ => .strict) (Network.Allowed sumConfig (Serves sumXml)) n₀ n ∧
      n.links[0]? = some ⟨.client (sumCall c) (.returned (.ok p)), up, down⟩ ∧
      outcome sumXml Unit (.ok p) = some (.ok ⟨2, inInt_two⟩) := by
  obtain ⟨n, p, up, down, hrun, hl⟩ := sum_answered hc hplay
  have hkept := Network.kept_of_reaches ((reaches_of_opens hplay).trans hrun)
  exact ⟨n, p, up, down, hrun, hl, (outcome_of_kept hkept hl (sum_accepted hc) (sum_request hc) sum_value sum_fault
    _).mpr ⟨⟨p, rfl⟩, answer_sum⟩⟩

theorem outcome_ok_iff_of_sum : ∃ (n : Network (Execution Unit)) (p : Packet Status) (up down : List Char),
    n.links[0]? = some ⟨.client (sumCall 7) (.returned (.ok p)), up, down⟩ ∧
      outcome sumXml Unit (.ok p) = some (.ok ⟨2, inInt_two⟩) := by
  obtain ⟨n₀, hplay, -⟩ := sum_waits 7
  obtain ⟨n, p, up, down, hrun, hl⟩ := sum_answered (Or.inl rfl) hplay
  exact ⟨n, p, up, down, hl, (outcome_ok_iff ((reaches_of_opens hplay).trans hrun) hl (sum_accepted (Or.inl rfl))
    (sum_request (Or.inl rfl)) sum_value sum_fault _).mpr ⟨⟨p, rfl⟩, answer_sum⟩⟩

end ClientControllerTask

end DispCalc
