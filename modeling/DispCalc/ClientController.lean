import DispCalc.ExprTree.Code
import DispCalc.Lib.Runs
import DispCalc.Parser.Code
import Mathlib.Data.List.DropRight

/-!
# `ClientController`

The thread that handles the lines of the user, one after the other. Its actions change the
controller up to the statement that throws, if one does. What `parse` has written to
`__expressionStack` when one of its own actions throws is left out: nothing reads it any more.
-/

open Recognizer DispCalc.Parser

namespace DispCalc

inductive MessageType where
  | action
  | info
  deriving DecidableEq, Repr

structure Message where
  messageBody : String
  params : List String := []
  source : String := "unknown"
  type : MessageType := .info
  deriving DecidableEq, Repr

/-! ## `TextUserInterface` -/

/-- `boost::trim_copy`. -/
def trimCopy (str : List Char) : List Char := (str.dropWhile isSpace).rdropWhile isSpace

/-- The `char_separator` drops empty tokens. -/
def tokenizer (mess : String) : List (List Char) :=
  (mess.toList.splitOn ' ').filter fun token => !token.isEmpty

def createMessage (mess : String) : Message :=
  match (tokenizer mess).map fun token => String.ofList (trimCopy token) with
  | [] => ⟨"", [], "ui", .action⟩
  | mbody :: mparams => ⟨mbody, mparams, "ui", .action⟩

/-! ## The controller -/

/-- A call of `sendTasks`. -/
structure Call where
  s : List String
  max_h : Nat
  deriving DecidableEq, Repr

/-- A supervisor that has been started: its tree and its `maxH_`. -/
structure Started where
  tree : ExprTree
  maxH : Nat
  deriving DecidableEq, Repr

/-- `posted`, `cerr` and `cout` record what is written to the box and to the streams, and `sent`
the calls of `sendTasks`, each with the index of its parameter. -/
structure ClientController where
  programRunning : Bool := true
  uiRunning : Bool := true
  expressionStack : List String := []
  supervisors : List (String × Started) := []
  posted : List (String × Message) := []
  cerr : List String := []
  cout : List String := []
  sent : List (Nat × Call) := []
  deriving DecidableEq, Repr

/-- What ends the handling of a message before its end. -/
inductive Stop where
  | fault (f : Fault)
  /-- `iqnet::network_error`, which is no `iqxmlrpc::Exception`. -/
  | networkError
  deriving DecidableEq, Repr

/-- What comes of a request for the status of one task. -/
inductive Reply where
  | value (text : String)
  | exception
  | networkError
  deriving DecidableEq, Repr

/-- What comes from outside the thread while one message is handled: the identifier of the thread
that the `k`-th call of `sendTasks` creates, and for a supervisor that is asked for its status the
replies for the tasks in its `computers_`. -/
structure World where
  getId : Nat → String
  replies : String → List Reply

abbrev Action := EStateM Stop ClientController

namespace ClientController

/-- A call of a function that may throw. -/
def call {α : Type} (x : Except Fault α) : Action α := fun c =>
  match x with
  | .ok a => .ok a c
  | .error f => .error (.fault f) c

def postMessage (d : String) (m : Message) : Action Unit :=
  modify fun c => { c with posted := c.posted ++ [(d, m)] }

/-- `insert` of a map: an entry that is there stays. -/
def insertSupervisor (id : String) (st : Started) (supervisors : List (String × Started)) :
    List (String × Started) :=
  if (supervisors.lookup id).isSome then supervisors else supervisors ++ [(id, st)]

def sendTasks (w : World) (i : Nat) (s : List String) (max_h : Nat) : Action Unit := do
  let id := w.getId (← get).sent.length
  modify fun c => { c with sent := c.sent ++ [(i, ⟨s, max_h⟩)] }
  -- The constructor of the supervisor builds the tree.
  let tree ← call (ExprTree.regenerate s)
  postMessage "ui" { messageBody := "Identyfikator dostarczonych obliczen to: " ++ id }
  modify fun c => { c with supervisors := insertSupervisor id ⟨tree, max_h⟩ c.supervisors }

/-- `ClientControllerSupervisor::visit`. -/
def visit : List Reply → Action Unit
  | [] => pure ()
  | reply :: rest => do
    match reply with
    | .value text => postMessage "ui" { messageBody := text }
    | .exception =>
      modify fun c => { c with cerr := c.cerr ++ ["Wystapil nie oczekiwany blad biblioteki XML-RPC\n"] }
    | .networkError => throw .networkError
    visit rest

def checkStatus (w : World) (params : List String) : Action Unit :=
  match params with
  | [] => throw (.fault .outOfRange)
  | id :: _ => do
    match (← get).supervisors.lookup id with
    | some _ => visit (w.replies id)
    | none => postMessage "ui" { messageBody := "Niepoprawny identyfikator obliczen" }

/-! ## Actions -/

def DefaultExitAction.execute : Action Unit := do
  modify fun c => { c with uiRunning := false }
  modify fun c => { c with programRunning := false }

/-- The loop of both actions over their expressions, from the index `i`; `info` is not used. -/
def computeEach (w : World) (max_h : Nat) : Nat → List String → Action Unit
  | _, [] => pure ()
  | i, p :: params => do
    -- A throw leaves the stack as it was before this `parse`.
    let (st, _info) ← call (parse p (← get).expressionStack)
    modify fun c => { c with expressionStack := st }
    sendTasks w i st max_h
    modify fun c => { c with expressionStack := [] }
    computeEach w max_h (i + 1) params

def ComputeAction.execute (w : World) (params : List String) : Action Unit :=
  computeEach w 2 0 params

def ComputeMaxNAction.execute (w : World) (params : List String) : Action Unit := do
  if params.length < 2 then
    modify fun c => { c with cerr := c.cerr ++ ["Bledna liczba parametrow polecenia"] }
  match params with
  | [] => throw (.fault .outOfRange)
  | n :: params => do
    let maxHeight ← call (lexicalCast n)
    computeEach w (toSizeT maxHeight) 1 params

def StatusAction.execute (w : World) (params : List String) : Action Unit := checkStatus w params

def NoAction.execute : Action Unit :=
  modify fun c => { c with cout := c.cout ++ ["warning: unexpected action name\n"] }

inductive ControllerAction where
  | exit
  | compute
  | computemaxn
  | status
  | noAction
  deriving DecidableEq, Repr

/-- `execute` with parameters. -/
def ControllerAction.execute (w : World) : ControllerAction → List String → Action Unit
  | .exit, _ => DefaultExitAction.execute
  | .compute, params => ComputeAction.execute w params
  | .computemaxn, params => ComputeMaxNAction.execute w params
  | .status, params => StatusAction.execute w params
  | .noAction, _ => NoAction.execute

/-- `actions_`. -/
def actions : List (String × ControllerAction) :=
  [("exit", .exit), ("compute", .compute), ("computemaxn", .computemaxn), ("status", .status),
    ("print_warning_no_action", .noAction)]

def dispatchMessage (w : World) (m : Message) : Action Unit := do
  postMessage "ui"
    { messageBody := "ClientController::dispatchMessage got action (" ++ m.messageBody ++ ")" }
  match actions.lookup m.messageBody with
  | some action => action.execute w m.params
  | none => NoAction.execute

/-- A line of the user, as the interface and then the controller handle it. An empty line becomes
no message. -/
def input (w : World) (line : String) : Action Unit :=
  if line.isEmpty then pure () else dispatchMessage w (createMessage line)

/-- One line more in the loop of `run`, which ends with the program or with a throw. -/
def step (c : ClientController) : World × String → Option ClientController
  | (w, line) =>
    if c.programRunning then
      match input w line c with
      | .ok _ c' => some c'
      | .error _ _ => none
    else none

end ClientController

end DispCalc
