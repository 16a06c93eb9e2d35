import DispCalc.Lib.Recognizer
import DispCalc.Numbers

/-!
# `Parser`

The grammar of the command line. Its actions write the postfix list of what they read to
`__expressionStack`, whose end is the end of the list.
-/

open Recognizer

namespace DispCalc.Parser

abbrev Rule := Recognizer.Rule Char (List String) Fault

/-- `space_p`. -/
def isSpace (c : Char) : Bool :=
  c = ' ' || c = '\t' || c = '\n' || c = '\x0b' || c = '\x0c' || c = '\r'

/-! ## Actions -/

def doInt (text : List Char) (st : List String) : Except Fault (List String) :=
  .ok (st ++ [String.ofList text])

def pushOp (o : Op) (st : List String) : Except Fault (List String) := .ok (st ++ [o.name])

def doAdd : List String → Except Fault (List String) := pushOp .add
def doSubt : List String → Except Fault (List String) := pushOp .subtract
def doMult : List String → Except Fault (List String) := pushOp .multiply
def doDiv : List String → Except Fault (List String) := pushOp .divide

def doNeg (st : List String) : Except Fault (List String) :=
  match st.getLast? with
  | none => .error .emptyStack
  | some back => do
    let x ← lexicalCast back
    let x ← checkInt (-1 * x)
    return st.dropLast ++ [toString x]

/-! ## Rules -/

/-- `operand >> *((c₁ >> operand)[f₁] | (c₂ >> operand)[f₂])`. -/
def leftAssoc (operand : Rule) (c₁ : Char) (f₁ : List String → Except Fault (List String))
    (c₂ : Char) (f₂ : List String → Except Fault (List String)) : Rule :=
  seq operand (star (alt (action (seq (ch isSpace c₁) operand) f₁)
    (action (seq (ch isSpace c₂) operand) f₂)))

def term (factor : Rule) : Rule := leftAssoc factor '*' doMult '/' doDiv

def expression (factor : Rule) : Rule := leftAssoc (term factor) '+' doAdd '-' doSubt

def factorOf (factor : Rule) : Rule :=
  alt (lexeme isSpace Char.isDigit doInt) <|
  alt (seq (ch isSpace '(') (seq (expression factor) (ch isSpace ')'))) <|
  alt (action (seq (ch isSpace '-') factor) doNeg) <|
  seq (ch isSpace '+') factor

/-- `factor` to a depth. Each level consumes a character, so the depth of `factor` is enough
(`Actions.factor_eq`). -/
def factorWithin : Nat → Rule
  | 0 => fun _ _ => .error .unfinished
  | depth + 1 => factorOf (factorWithin depth)

def factor : Rule := fun i st => factorWithin (i.length + 1) i st

/-- The characters of `c_str()`, up to the first NUL. -/
def cStr (s : String) : List Char := s.toList.takeWhile (· ≠ '\x00')

/-- `parse(s, parser, space_p)`; its `parse_info` is not used. -/
def parse (s : String) (expressionStack : List String) : Outcome Char (List String) Fault :=
  expression factor (cStr s) expressionStack

end DispCalc.Parser
