import DispCalc.Iqxmlrpc.Value

/-!
# Values as XML

`Value_type_to_xml`, and what a document that is written with `write_to_string_formatted` looks
like when it is read again: the writer puts white space between the elements, and an empty text
is no node.
-/

namespace DispCalc.Iqxmlrpc

/-- A node of a document, with its line. The rest are the nodes that are neither elements nor
`TextNode`s: comments, processing instructions and CDATA sections. -/
inductive Node where
  | element (line : Nat) (name : String) (children : List Node)
  | text (line : Nat) (content : String)
  | other (line : Nat) (name : String)

namespace Node

def getLine : Node → Nat
  | element line _ _ => line
  | text line _ => line
  | other line _ => line

def getName : Node → String
  | element _ name _ => name
  | text _ _ => "text"
  | other _ name => name

def getChildren : Node → List Node
  | element _ _ children => children
  | _ => []

/-- `Element::get_child_text`: the first text. -/
def getChildText (node : Node) : Option String :=
  node.getChildren.findSome? fun
    | text _ content => some content
    | _ => none

end Node

/-- `add_child` on a node that is not in a file has no line. -/
def element (name : String) (children : List Node) : Node := .element 0 name children

/-- `add_child` and `add_child_text`. -/
def leaf (name content : String) : Node := element name [.text 0 content]

/-! ## Writing -/

variable {δ : Type} [StdText δ]

mutual

/-- The element that `Value_type_to_xml` adds for the type of a value. -/
def Value.typeToXml : Value δ → Node
  | .nil => element "nil" []
  | .int i => leaf "i4" (toString i.1)
  | .bool b => leaf "boolean" (if b then "1" else "0")
  | .double d => leaf "double" (StdText.write d)
  | .string s => leaf "string" s
  | .array values => element "array" [element "data" (Value.arrayToXml values)]
  | .struct values => element "struct" (Value.structToXml values)
  | .base64 b => leaf "base64" (String.ofList b.base64)
  | .datetime d => leaf "dateTime.iso8601" (String.ofList (d.toString δ))

def Value.arrayToXml : List (Value δ) → List Node
  | [] => []
  | v :: values => element "value" [v.typeToXml] :: Value.arrayToXml values

def Value.structToXml : List (String × Value δ) → List Node
  | [] => []
  | (name, v) :: values =>
    element "member" [leaf "name" name, element "value" [v.typeToXml]] :: Value.structToXml values

end

/-- `value_to_xml`, with the node that it adds. -/
def Value.toXml (v : Value δ) : Node := element "value" [v.typeToXml]

theorem arrayToXml_eq (values : List (Value δ)) : Value.arrayToXml values = values.map Value.toXml := by
  induction values with
  | nil => rfl
  | cons v values ih => rw [Value.arrayToXml, ih]; rfl

def memberToXml (e : String × Value δ) : Node := element "member" [leaf "name" e.1, e.2.toXml]

theorem structToXml_eq (values : List (String × Value δ)) :
    Value.structToXml values = values.map memberToXml := by
  induction values with
  | nil => rfl
  | cons e values ih => rw [Value.structToXml, ih]; rfl

/-! ## The document that is read -/

/-- The nodes of the second list are those of the first, related by `R`, with blank texts and nodes
that are no elements between them. -/
inductive Spaced (R : Node → Node → Prop) : List Node → List Node → Prop where
  | nil : Spaced R [] []
  | child {n n' : Node} {ns ns' : List Node} (h : R n n') (hs : Spaced R ns ns') :
    Spaced R (n :: ns) (n' :: ns')
  | blank {line : Nat} {s : String} {ns ns' : List Node} (h : isBlank s = true) (hs : Spaced R ns ns') :
    Spaced R ns (.text line s :: ns')
  | other {line : Nat} {name : String} {ns ns' : List Node} (hs : Spaced R ns ns') :
    Spaced R ns (.other line name :: ns')

/-- The second element may be read where the first one was written. A text is kept to the letter;
white space comes only between elements. -/
inductive Formatted : Node → Node → Prop where
  | text {line line' l l' : Nat} {name s : String} (h : s ≠ "") :
    Formatted (.element line name [.text l s]) (.element line' name [.text l' s])
  | empty {line line' l : Nat} {name : String} :
    Formatted (.element line name [.text l ""]) (.element line' name [])
  | elements {line line' : Nat} {name : String} {ns ns' : List Node} (h : Spaced Formatted ns ns') :
    Formatted (.element line name ns) (.element line' name ns')

/-! ## Elements among the children -/

def elementsOf : List Node → Except Failure (List Node)
  | [] => .ok []
  | .text line content :: ns =>
    if isBlank content then elementsOf ns else .error (.exception (.atNode line))
  | .element line name children :: ns => (elementsOf ns).map (.element line name children :: ·)
  | .other _ _ :: ns => elementsOf ns

def elementsOnly (node : Node) : Except Failure (List Node) := elementsOf node.getChildren

def singleElement (node : Node) : Except Failure Node := do
  match ← elementsOnly node with
  | [el] => return el
  | _ => .error (.exception (.atNode node.getLine))

theorem mem_of_elementsOf {ns els : List Node} (h : elementsOf ns = .ok els) : ∀ el ∈ els, el ∈ ns := by
  induction ns generalizing els with
  | nil =>
    obtain rfl := Except.ok.inj h
    simp
  | cons n ns ih =>
    cases n with
    | text line content =>
      rw [elementsOf] at h
      split at h
      · exact fun el hel => List.mem_cons_of_mem _ (ih h el hel)
      · cases h
    | other line name => exact fun el hel => List.mem_cons_of_mem _ (ih h el hel)
    | element line name children =>
      rw [elementsOf, Except.map_eq_ok] at h
      obtain ⟨els', h', rfl⟩ := h
      intro el hel
      rcases List.mem_cons.mp hel with rfl | hel
      · exact List.mem_cons_self
      · exact List.mem_cons_of_mem _ (ih h' el hel)

theorem Formatted.element_right {n n' : Node} (h : Formatted n n') :
    ∃ line children, n' = .element line n.getName children := by
  cases h with
  | text h => exact ⟨_, _, rfl⟩
  | empty => exact ⟨_, _, rfl⟩
  | elements h => exact ⟨_, _, rfl⟩

theorem elementsOf_spaced {ns ns' : List Node} (h : Spaced Formatted ns ns') :
    ∃ els, elementsOf ns' = .ok els ∧ List.Forall₂ Formatted ns els := by
  induction h with
  | nil => exact ⟨[], rfl, .nil⟩
  | child hn hs ih =>
    obtain ⟨els, hels, hall⟩ := ih
    obtain ⟨line, children, rfl⟩ := hn.element_right
    exact ⟨_ :: els, by rw [elementsOf, hels]; rfl, .cons hn hall⟩
  | blank hblank hs ih =>
    obtain ⟨els, hels, hall⟩ := ih
    exact ⟨els, by rw [elementsOf, if_pos hblank, hels], hall⟩
  | other hs ih => exact ih

end DispCalc.Iqxmlrpc
