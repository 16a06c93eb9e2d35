import DispCalc.Iqxmlrpc.Base64
import DispCalc.Iqxmlrpc.DateTime
import DispCalc.Lib.SortedMap
import Mathlib.Data.String.Basic

/-!
# `Value`

The values of XML-RPC. A `Struct` is a map in the order of its field names. `δ` is `double`, of
which the library writes and reads the texts, as it writes those of dates.
-/

open SortedMap

namespace DispCalc.Iqxmlrpc

/-- What the standard library writes and reads. -/
class StdText (δ : Type) where
  /-- `lexical_cast<std::string>` of a `double`. -/
  write : δ → String
  /-- A `>>` from a stream that it leaves at its end. -/
  read : String → Option δ
  /-- The 17 characters that are kept of the array that `strftime` fills. -/
  strftime : Tm → List Char
  /-- Outside the normal range of the fields the characters are unspecified. -/
  strftime_normal : ∀ tm : Tm, tm.Normal → strftime tm = tm.iso8601

def DateTime.toString (δ : Type) [StdText δ] (d : DateTime) : List Char := StdText.strftime δ d.tm

inductive Value (δ : Type) where
  | nil
  | int (i : IntValue)
  | bool (b : Bool)
  | double (d : δ)
  | string (s : String)
  | array (values : List (Value δ))
  | struct (values : List (String × Value δ))
  | base64 (b : BinaryData)
  | datetime (d : DateTime)

/-- `find_first_not_of("\t\n\r ") == npos`. -/
def isBlank (s : String) : Bool := s.toList.all fun c => c = '\t' || c = '\n' || c = '\r' || c = ' '

namespace Value

variable {δ : Type}

def getInt : Value δ → Except Exception IntValue
  | int i => .ok i
  | _ => .error .badCast

def getString : Value δ → Except Exception String
  | string s => .ok s
  | _ => .error .badCast

def theArray : Value δ → Except Exception (List (Value δ))
  | array values => .ok values
  | _ => .error .badCast

def theStruct : Value δ → Except Exception (List (String × Value δ))
  | struct values => .ok values
  | _ => .error .badCast

def hasField (v : Value δ) (f : String) : Except Exception Bool := do
  return ((← v.theStruct).lookup f).isSome

/-- `operator []` of a struct. -/
def field (v : Value δ) (f : String) : Except Exception (Value δ) := do
  ((← v.theStruct).lookup f).elim (.error (.noField f)) .ok

def insert (v : Value δ) (f : String) (u : Value δ) : Except Exception (Value δ) := do
  return struct (upsert f u (← v.theStruct))

/-- The values that a text of XML-RPC can carry: no field has a blank name, each `double` is read as
the one that was written, and each date is one that the constructor from a text accepts. -/
inductive Sendable [StdText δ] : Value δ → Prop where
  | nil : Sendable .nil
  | int (i : IntValue) : Sendable (.int i)
  | bool (b : Bool) : Sendable (.bool b)
  | double {d : δ} (hd : StdText.write d ≠ "") (h : StdText.read (StdText.write d) = some d) :
    Sendable (.double d)
  | string (s : String) : Sendable (.string s)
  | array {values : List (Value δ)} (h : ∀ v ∈ values, Sendable v) : Sendable (.array values)
  | struct {values : List (String × Value δ)} (hs : Sorted values)
    (hn : ∀ e ∈ values, isBlank e.1 = false) (h : ∀ e ∈ values, Sendable e.2) : Sendable (.struct values)
  | base64 (b : BinaryData) : Sendable (.base64 b)
  | datetime {d : DateTime} (h : d.tm.Normal) : Sendable (.datetime d)

end Value

end DispCalc.Iqxmlrpc
