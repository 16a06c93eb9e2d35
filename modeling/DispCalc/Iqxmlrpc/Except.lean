import DispCalc.Lib.Results
import DispCalc.Numbers

/-!
# Exceptions of the XML-RPC library

The library throws objects with a text and a fault code. A few of its functions have no defined
result on some inputs.
-/

namespace DispCalc.Iqxmlrpc

abbrev IntValue := { i : Int // InInt i }

/-- The code of an exception that names no other one. -/
def undefinedError : IntValue := ⟨-32000, by decide⟩

/-- `iqxmlrpc::Exception`: `what()` and `code()`. -/
structure Exception where
  what : String
  code : IntValue := undefinedError
  deriving DecidableEq, Repr

/-- What stops a function: an exception, or a step that has no defined result. -/
inductive Failure where
  | exception (e : Exception)
  | undefined
  deriving DecidableEq, Repr

namespace Exception

def parseError (d : String) : Exception := ⟨"Parser error. " ++ d, ⟨-32700, by decide⟩⟩

def xmlRpcViolation (s : String) : Exception := ⟨"Server error. XML-RPC violation: " ++ s, ⟨-32600, by decide⟩⟩

/-- `XML_RPC_violation::at_node`. -/
def atNode (line : Nat) : Exception :=
  xmlRpcViolation ("XML-RPC format violation at line " ++ toString line)

/-- `XML_RPC_violation::caused`, with the line of the node if there is one. -/
def caused (s : String) (line : Option Nat := none) : Exception :=
  xmlRpcViolation (match line with
    | some line => s ++ " at line " ++ toString line
    | none => s)

def unknownMethod (name : String) : Exception :=
  ⟨"Server error. Method '" ++ name ++ "' not found.", ⟨-32601, by decide⟩⟩

/-- `Value::Bad_cast`. -/
def badCast : Exception := { what := "iqxmlrpc::Value: incorrect type was requested." }

/-- `Array::Out_of_range`. -/
def outOfRange : Exception := { what := "Array: index out of range." }

/-- `Struct::No_field`. -/
def noField (f : String) : Exception := { what := "Struct: field '" ++ f ++ "' not exist." }

def malformedBase64 : Exception := { what := "Malformed base64 format." }

def malformedIso8601 : Exception := { what := "Malformed date-time format." }

end Exception

end DispCalc.Iqxmlrpc
