import DispCalc.Iqxmlrpc.Except
import DispCalc.Lib.SortedMap
import DispCalc.Lib.Splitting
import DispCalc.Numbers
import DispCalc.Parser.Code
import Mathlib.Data.List.DropRight
import Mathlib.Data.String.Basic

/-!
# HTTP headers

The first line and the options of a packet, as the library writes and parses them. The options are
a map in the order of their names.
-/

open SortedMap Splitting

namespace DispCalc.Iqxmlrpc

open DispCalc.Parser (isSpace)

/-- What the HTTP layer throws. An `Error_response` is a packet too. -/
inductive HttpError where
  | malformedPacket (problem : Option String)
  | errorResponse (phrase : String) (code : Int) (options : List (String × String))
  deriving DecidableEq, Repr

namespace HttpError

def badRequest : HttpError := errorResponse "Bad request" 400 []

def methodNotAllowed : HttpError := errorResponse "Method not allowed" 405 [("allowed:", "POST")]

def lengthRequired : HttpError := errorResponse "Content-Length Required" 411 []

def requestTooLarge : HttpError := errorResponse "Request Entity Too Large" 413 []

def unsupportedContentType (wrong : String) : HttpError :=
  errorResponse ("Unsupported media type '" ++ wrong ++ "'") 415 []

end HttpError

inductive VerificationLevel where
  | weak
  | strict
  deriving DecidableEq, Repr

/-! ## Texts -/

def crlf : List Char := ['\r', '\n']

def isCrlf (c : Char) : Bool := c = '\r' || c = '\n'

/-- `boost::trim`. -/
def trim (s : List Char) : List Char := (s.dropWhile isSpace).rdropWhile isSpace

/-- `boost::to_lower`. -/
def toLower (s : List Char) : List Char := s.map Char.toLower

/-- `lexical_cast<unsigned>` of a text that a validator has let pass. -/
def readUnsigned (s : String) : Option Nat :=
  if isDigits s.toList ∧ digitsValue s.toList < 2 ^ 32 then some (digitsValue s.toList) else none

/-! ## Options -/

namespace Validator

def unsignedNumber (val : String) : Except HttpError Unit :=
  match readUnsigned val with
  | some _ => .ok ()
  | none => .error (.malformedPacket (some "bad format of numeric option"))

def connection (val : String) : Except HttpError Unit :=
  let tmp := String.ofList (toLower val.toList)
  if tmp ≠ "close" ∧ tmp ≠ "keep-alive" then
    .error (.malformedPacket (some "bad 'connection' option format"))
  else .ok ()

def contentType (val : String) : Except HttpError Unit :=
  let contType := toLower val.toList
  if "text/xml".toList <:+: contType then .ok ()
  else .error (.unsupportedContentType (String.ofList contType))

end Validator

/-- The validators that the constructor of `Header` registers, each with its level. -/
def validate (lev : VerificationLevel) (name value : String) : Except HttpError Unit :=
  if name = "content-length" then Validator.unsignedNumber value
  else if name = "content-type" then
    match lev with
    | .weak => .ok ()
    | .strict => Validator.contentType value
  else if name = "connection" then Validator.connection value
  else .ok ()

abbrev Options := List (String × String)

/-- `set_option_checked`. -/
def setOptionChecked (lev : VerificationLevel) (name value : String) (options : Options) :
    Except HttpError Options := do
  validate lev name value
  return upsert name value options

def setOptionDefault (name value : String) (options : Options) : Options :=
  if (options.lookup name).isSome then options else upsert name value options

/-- One line of the loop of `Header::parse`. -/
def parseOption (lev : VerificationLevel) (options : Options) (line : List Char) :
    Except HttpError Options :=
  match splitFirst [':'] line with
  | none => .error (.malformedPacket (some "option line does not contain a colon symbol"))
  | some (name, value) =>
    setOptionChecked lev (String.ofList (toLower (trim name))) (String.ofList (trim value)) options

/-- The options of a new header: `set_conn_keep_alive(false)`. -/
def newOptions : Options := [("connection", "close")]

/-- `Header::parse`: the first line and the options. -/
def Header.parse (lev : VerificationLevel) (s : List Char) : Except HttpError (List Char × Options) :=
  match splitRuns isCrlf s with
  | headLine :: lines => (lines.foldlM (parseOption lev) newOptions).map (headLine, ·)
  | [] => .ok ([], newOptions)

/-- A header: what its first line holds, and its options. -/
structure Header (ι : Type) where
  head : ι
  options : Options
  deriving DecidableEq

namespace Header

variable {ι : Type}

def setOption (h : Header ι) (name value : String) : Header ι :=
  { h with options := upsert name value h.options }

/-- `len` is an `unsigned`. -/
def setContentLength (h : Header ι) (len : Nat) : Header ι :=
  let h := h.setOption "content-length" (toString (len % 2 ^ 32))
  if len % 2 ^ 32 = 0 then h else h.setOption "content-type" "text/xml"

def setConnKeepAlive (h : Header ι) (c : Bool) : Header ι :=
  h.setOption "connection" (if c then "keep-alive" else "close")

def contentLength (h : Header ι) : Except HttpError Nat :=
  match h.options.lookup "content-length" with
  | none => .error .lengthRequired
  | some value =>
    match readUnsigned value with
    | some n => .ok n
    | none => .error (.malformedPacket (some "Header option 'content-length' has wrong format."))

def connKeepAlive (h : Header ι) : Except HttpError Bool :=
  match h.options.lookup "connection" with
  | none => .error (.malformedPacket (some "Missing mandatory header option 'connection'."))
  | some value => .ok (value = "keep-alive")

def optionLine (o : String × String) : List Char := o.1.toList ++ [':', ' '] ++ o.2.toList

/-- `Header::dump`, after the line that `dump_head` writes. -/
def dump (headLine : List Char) (options : Options) : List Char :=
  headLine ++ crlf ++ options.flatMap (fun o => optionLine o ++ crlf) ++ crlf

end Header

/-! ## Requests and responses -/

abbrev RequestHeader := Header String

structure Status where
  code : Int
  phrase : String
  deriving DecidableEq, Repr

abbrev ResponseHeader := Header Status

namespace RequestHeader

/-- `Request_header(uri, vhost, port)`. `package` is the name of the library and its version. -/
def new (package uri vhost : String) (port : Nat) : RequestHeader where
  head := uri
  options := upsert "user-agent" package (upsert "host" (vhost ++ ":" ++ toString port) newOptions)

def headLine (h : RequestHeader) : List Char := "POST ".toList ++ h.head.toList ++ " HTTP/1.0".toList

def dump (h : RequestHeader) : List Char := Header.dump h.headLine h.options

/-- `Request_header(lev, to_parse)`. -/
def parse (lev : VerificationLevel) (s : List Char) : Except HttpError RequestHeader := do
  let (headLine, options) ← Header.parse lev s
  let options := setOptionDefault "user-agent" "unknown" (setOptionDefault "host" "" options)
  let methodLine := splitRuns isSpace headLine
  if methodLine.head? ≠ some "POST".toList then .error .methodNotAllowed
  else return ⟨String.ofList (methodLine[1]?.getD []), options⟩

end RequestHeader

namespace ResponseHeader

/-- `Response_header(code, phrase)`, made at the time `date`. -/
def new (package date : String) (code : Int) (phrase : String) : ResponseHeader where
  head := ⟨code, phrase⟩
  options := upsert "server" package (upsert "date" date newOptions)

def headLine (h : ResponseHeader) : List Char :=
  "HTTP/1.1 ".toList ++ (toString h.head.code).toList ++ [' '] ++ h.head.phrase.toList

theorem headLine_eq (h : ResponseHeader) : h.headLine =
    "HTTP/1.1 ".toList ++ (toString h.head.code).toList ++ [' '] ++ h.head.phrase.toList := rfl

def dump (h : ResponseHeader) : List Char := Header.dump h.headLine h.options

/-- `Response_header(lev, to_parse)`. The phrase is the third word only. -/
def parse (lev : VerificationLevel) (s : List Char) : Except HttpError ResponseHeader := do
  let (headLine, options) ← Header.parse lev s
  let options := setOptionDefault "server" "unknown" options
  match splitRuns isSpace headLine with
  | _ :: code :: rest =>
    let code := match lexicalCast (String.ofList code) with
      | .ok code => code
      | .error _ => 0
    return ⟨⟨code, String.ofList (rest.headD [])⟩, options⟩
  | _ => .error (.malformedPacket (some "Bad response"))

end ResponseHeader

end DispCalc.Iqxmlrpc
