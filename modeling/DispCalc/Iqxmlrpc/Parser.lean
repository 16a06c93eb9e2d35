import DispCalc.Iqxmlrpc.Xml

/-!
# The parser of values

`Parser::parse_value` and the parsers of the types. They see elements and the first text of an
element.
-/

open SortedMap

namespace DispCalc.Iqxmlrpc

open DispCalc.Parser (isSpace)

def throwAt {α : Type} (node : Node) : Except Failure α := .error (.exception (.atNode node.getLine))

def throwCaused {α : Type} (s : String) (line : Option Nat) : Except Failure α :=
  .error (.exception (.caused s line))

/-- The cast to `Element`, then `get_child_text`. -/
def childText (node : Node) : Except Failure (Option String) :=
  match node with
  | .element .. => .ok node.getChildText
  | _ => throwAt node

/-- `ss >> i` from the whole text, with `ss.eof()` after it. -/
def readInt (s : String) : Option IntValue :=
  match numeral? (String.ofList (s.toList.dropWhile isSpace)) with
  | some i => if h : InInt i then some ⟨i, h⟩ else none
  | none => none

variable {δ : Type} [StdText δ]

/-! ## Types without parts -/

def intParser (node : Node) : Except Failure (Value δ) := do
  match ← childText node with
  | some text =>
    match readInt text with
    | some i => return .int i
    | none => throwCaused "bad int representation" node.getLine
  | none => throwAt node

def stringParser (node : Node) : Except Failure (Value δ) := do
  return .string ((← childText node).getD "")

def booleanParser (node : Node) : Except Failure (Value δ) := do
  match ← childText node with
  | some s =>
    if s = "1" ∨ s = "true" then return .bool true
    else if s = "0" ∨ s = "false" then return .bool false
    else throwCaused "bad bool representation" node.getLine
  | none => throwAt node

def doubleParser (node : Node) : Except Failure (Value δ) := do
  match ← childText node with
  | some text =>
    match StdText.read text with
    | some d => return .double d
    | none => throwCaused "bad double representation" node.getLine
  | none => throwAt node

def base64Parser (node : Node) : Except Failure (Value δ) := do
  let text ← childText node
  match BinaryData.fromBase64 (text.getD "").toList with
  | .ok b => return .base64 b
  | .error e => .error (.exception e)

def dateTimeParser (node : Node) : Except Failure (Value δ) := do
  let text ← childText node
  match DateTime.ofString (text.getD "").toList with
  | .ok d => return .datetime d
  | .error e => .error (.exception e)

/-- `get_member_name`. The source uses the text without a test that there is one. -/
def getMemberName (node : Node) : Except Failure String :=
  if node.getChildren.length ≠ 1 then throwAt node
  else do
    match ← childText node with
    | none => .error .undefined
    | some name => if isBlank name then throwAt node else return name

/-! ## Values -/

theorem mem_of_singleElement {node el : Node} (h : singleElement node = .ok el) :
    el ∈ node.getChildren := by
  unfold singleElement at h
  rw [Except.bind_eq_ok] at h
  obtain ⟨els, hels, h⟩ := h
  split at h
  · obtain rfl := Except.ok.inj h
    exact mem_of_elementsOf hels _ List.mem_cons_self
  · cases h

theorem sizeOf_child {node n : Node} (h : n ∈ node.getChildren) : sizeOf n < sizeOf node := by
  cases node with
  | element line name children =>
    have := List.sizeOf_lt_of_mem h
    simp only [Node.element.sizeOf_spec]
    change sizeOf n < sizeOf children at this
    omega
  | text line content => cases h
  | other line name => cases h

mutual

def parseValue (node : Node) : Except Failure (Value δ) :=
  if node.getName ≠ "value" then throwAt node
  else
    match node.getChildren with
    | [] => .ok (.string "")
    | [.text _ _] => stringParser node
    | _ => do
      let ⟨el, hel⟩ ← (singleElement node).attach
      have := sizeOf_child (mem_of_singleElement hel)
      typeParser el
termination_by (sizeOf node, 2)

def typeParser (node : Node) : Except Failure (Value δ) :=
  match node.getName with
  | "i4" | "int" => intParser node
  | "boolean" => booleanParser node
  | "double" => doubleParser node
  | "string" | "" => stringParser node
  | "nil" => .ok .nil
  | "base64" => base64Parser node
  | "dateTime.iso8601" => dateTimeParser node
  | "array" => arrayParser node
  | "struct" => structParser node
  | tname => throwCaused ("unknown XML-RPC value type '" ++ tname ++ "'") none
termination_by (sizeOf node, 1)

def arrayParser (node : Node) : Except Failure (Value δ) := do
  let ⟨data, hdata⟩ ← (singleElement node).attach
  if data.getName ≠ "data" then throwAt node
  else do
    let ⟨els, hels⟩ ← (elementsOnly data).attach
    let values ← els.attach.mapM fun ⟨el, hel⟩ =>
      have := sizeOf_child (mem_of_elementsOf hels el hel)
      have := sizeOf_child (mem_of_singleElement hdata)
      parseValue el
    return .array values
termination_by (sizeOf node, 0)

def structParser (node : Node) : Except Failure (Value δ) := do
  let ⟨members, hmembers⟩ ← (elementsOnly node).attach
  let values ← members.attach.foldlM (fun s ⟨member, hmember⟩ => do
    have := sizeOf_child (mem_of_elementsOf hmembers member hmember)
    let e ← memberParser member
    return upsert e.1 e.2 s) []
  return .struct values
termination_by (sizeOf node, 0)

/-- One iteration of the loop of `Struct_parser`. `front()` and `back()` of an empty list have no
defined result. -/
def memberParser (member : Node) : Except Failure (String × Value δ) :=
  if member.getName ≠ "member" then throwAt member
  else do
    let ⟨mbr, hmbr⟩ ← (elementsOnly member).attach
    match hm : mbr with
    | [] => .error .undefined
    | front :: rest =>
      if front.getName ≠ "name" then throwAt front
      else do
        let name ← getMemberName front
        have hback : (front :: rest).getLast (by simp) ∈ front :: rest := List.getLast_mem _
        have hlt := sizeOf_child (mem_of_elementsOf (hm ▸ hmbr) _ hback)
        let value ← parseValue ((front :: rest).getLast (by simp))
        return (name, value)
termination_by (sizeOf member, 0)
decreasing_by exact Prod.Lex.left _ _ hlt

end

/-! ## The same without the bounds on the recursion -/

theorem parseValue_eq (node : Node) : (parseValue node : Except Failure (Value δ)) =
    if node.getName ≠ "value" then throwAt node
    else
      match node.getChildren with
      | [] => .ok (.string "")
      | [.text _ _] => stringParser node
      | _ => singleElement node >>= typeParser := by
  rw [parseValue]
  simp only [Except.attach_bind]

theorem arrayParser_eq (node : Node) : (arrayParser node : Except Failure (Value δ)) = do
    let data ← singleElement node
    if data.getName ≠ "data" then throwAt node
    else do
      let els ← elementsOnly data
      return .array (← els.mapM parseValue) := by
  rw [arrayParser]
  refine Except.attach_bind fun data hdata => ?_
  dsimp only
  split
  · rfl
  · refine Except.attach_bind fun els hels => ?_
    dsimp only
    rw [List.mapM_subtype fun _ _ => rfl, List.unattach_attach]

theorem structParser_eq (node : Node) : (structParser node : Except Failure (Value δ)) = do
    let members ← elementsOnly node
    let values ← members.foldlM (fun s member => do
      let e ← memberParser member
      return upsert e.1 e.2 s) []
    return .struct values := by
  rw [structParser]
  refine Except.attach_bind fun members hmembers => ?_
  dsimp only
  congr 1
  conv_rhs => rw [← List.unattach_attach (l := members)]
  exact List.foldlM_subtype fun _ _ _ => rfl

theorem memberParser_eq (member : Node) :
    (memberParser member : Except Failure (String × Value δ)) =
    if member.getName ≠ "member" then throwAt member
    else do
      match ← elementsOnly member with
      | [] => .error .undefined
      | front :: rest =>
        if front.getName ≠ "name" then throwAt front
        else do
          let name ← getMemberName front
          return (name, ← parseValue ((front :: rest).getLast (by simp))) := by
  rw [memberParser]
  congr 1
  refine Except.attach_bind fun mbr hmbr => ?_
  cases mbr <;> rfl

end DispCalc.Iqxmlrpc
