import DispCalc.Computer
import DispCalc.ExprTree.Code
import Mathlib.Logic.Function.Basic

/-!
# `ClientControllerSupervisor` and its tasks

One supervisor evaluates one expression. It cuts the tree, starts a thread for each piece
with an operator, and puts the answers together. `ι` is the type of thread identifiers.
-/

namespace DispCalc

/-- `ThreadResult`: an entry of `resultStack_`. -/
structure ThreadResult (ι : Type) where
  threadId : Option ι
  result : Option String
  deriving DecidableEq, Repr

/-- How the `run` of a task ends: with an `int`, or in one of its two `catch` clauses. -/
inductive Ending where
  | result
  | networkError
  | otherError
  deriving DecidableEq, Repr

/-- A `ClientControllerTask` object and its thread. `chunk` is no field of the source: it
records which element of `chunkedTree` the task was made for. -/
structure ClientControllerTask where
  expr : List String
  chunk : Nat
  idxInResultStack : Option Nat := none
  deleted : Bool := false
  ending : Option Ending := none
  deriving DecidableEq, Repr

/-- What `getIdx()` may return: any number before `setIdx`, and any once the object is deleted. -/
def ClientControllerTask.mayGetIdx (t : ClientControllerTask) (idx : Nat) : Bool :=
  t.deleted || t.idxInResultStack.all (· == idx)

/-- Where the loop of `dispatchTree` is: before its test, or after one of its statements. -/
inductive Point (ι : Type) where
  | test
  | created (c : ι)
  | inserted (c : ι)
  | pushed (c : ι)
  | next
  deriving DecidableEq, Repr

/-- One execution of `finalComputation`: the entries it read and what came of them. -/
structure Final (ι : Type) where
  entries : List (ThreadResult ι)
  answer : Except (Nat × Fault) String

/-- The supervisor's fields, the variables of its loop and the objects of its tasks.
`aborts`, `finals` and `outside` record calls of `abort`, of `finalComputation`, and of
`notify` with an index outside `resultStack_`. -/
structure ClientControllerSupervisor (ι : Type) where
  chunkedTree : List ExprTree := []
  it : Nat := 0
  idx : Nat := 0
  point : Point ι := .test
  resultStack : List (ThreadResult ι) := []
  computers : List ι := []
  tasks : ι → Option ClientControllerTask := fun _ => none
  finals : List (Final ι) := []
  aborts : Nat := 0
  outside : Bool := false
  messages : List String := []

namespace ClientControllerSupervisor

variable {ι : Type}

/-! ## Results -/

def postMessage (m : String) (st : ClientControllerSupervisor ι) : ClientControllerSupervisor ι :=
  { st with messages := st.messages ++ [m] }

def isResultComplete (st : ClientControllerSupervisor ι) : Bool :=
  st.resultStack.all fun r => r.result.isSome

/-- `countStack`; an entry without a result has nothing to dereference. -/
def countStack (entries : List (ThreadResult ι)) : Except (Nat × Fault) (List String) :=
  entries.mapM fun r =>
    match r.result with
    | some s => .ok s
    | none => .error (0, .unassigned)

def finalComputation (st : ClientControllerSupervisor ι) : ClientControllerSupervisor ι :=
  let answer := countStack st.resultStack >>= Computer.compute
  { st with
    finals := st.finals ++ [⟨st.resultStack, answer⟩]
    messages := st.messages ++ ["Supervisor::Obliczenie ostateczne",
        "Supervisor::Rozmiar stosu " ++ toString st.resultStack.length] ++
      match answer with
      | .ok res => ["\n@ Supervisor::Ostateczny wynik(int): " ++ res ++ "\n"]
      | .error _ => [] }

def assignResultStack (tree : ExprTree) (st : ClientControllerSupervisor ι) :
    ClientControllerSupervisor ι :=
  { st with resultStack := st.resultStack ++ (tree.toStack 1).map fun s => ⟨none, some s⟩ }

/-- `interrupt_all` stops nothing: no task waits at an interruption point. -/
def abort [DecidableEq ι] (st : ClientControllerSupervisor ι) : ClientControllerSupervisor ι :=
  { st with
    tasks := fun c => (st.tasks c).map fun t =>
      if c ∈ st.computers then { t with deleted := true } else t
    computers := []
    aborts := st.aborts + 1
    messages := st.messages ++ ["OBLICZENIA PRZERWANE !!!"] }

def notify [DecidableEq ι] (result : String) (id : ι) (idx : Nat)
    (st : ClientControllerSupervisor ι) : ClientControllerSupervisor ι :=
  match st.resultStack[idx]? with
  | none => { st with outside := true }
  | some entry =>
    if entry.threadId ≠ some id then
      st.postMessage "Bledne ID watku, dla danego wezla drzewa, obliczenia przerwane"
    else
      let st := { st with resultStack := st.resultStack.set idx { entry with result := some result } }
      if st.isResultComplete then st.finalComputation
      else st.postMessage "Supervisor::Oczekiwanie na kompletne wyniki"

/-! ## Start -/

/-- `dispatchTree` up to its loop. -/
def dispatchTree (tree : ExprTree) (maxH : Nat) : Except Fault (ClientControllerSupervisor ι) := do
  let maxHeight := if maxH < 1 then 1 else maxH
  let chunkedTree ← tree.chunk (toInt maxHeight)
  return { chunkedTree, messages :=
    ["Dispatching tree (to max height " ++ toString maxH ++ ")", tree.print,
      "Tree chunked for calculations to trees:",
      -- `os.clear()` keeps the text of the first message.
      tree.print ++ String.join (chunkedTree.map ExprTree.print)] }

def run (tree : ExprTree) (maxH : Nat) : Except Fault (ClientControllerSupervisor ι) :=
  if toSizeT tree.height ≤ maxH then
    let st : ClientControllerSupervisor ι :=
      { messages := ["Wysokosc stosu jest za mala by oplacalo sie je przysylac"] }
    .ok (st.assignResultStack tree).finalComputation
  else dispatchTree tree maxH

/-- What `sendTasks` starts: the constructor, then `run` in a thread of its own. -/
def sendTasks (s : List String) (max_h : Nat := 2) : Except Fault (ClientControllerSupervisor ι) := do
  let tree ← ExprTree.regenerate s
  run tree max_h

/-! ## Steps -/

/-- `create_thread` gives the new thread an identifier no other thread has. -/
def createThread [DecidableEq ι] (c : ι) (st : ClientControllerSupervisor ι) :
    Option (ClientControllerSupervisor ι) :=
  match st.point, st.chunkedTree[st.it]? with
  | .test, some t =>
    if t.height = 0 ∨ (st.tasks c).isSome then none
    else some { st with
      tasks := Function.update st.tasks c (some { expr := t.toStack 1, chunk := st.it })
      point := .created c }
  | _, _ => none

def setIdx [DecidableEq ι] (c : ι) (st : ClientControllerSupervisor ι) : ClientControllerSupervisor ι :=
  { st with
    tasks := Function.update st.tasks c
      ((st.tasks c).map fun t => { t with idxInResultStack := some st.idx }) }

/-- Any statement of the loop other than `create_thread`. -/
def statement [DecidableEq ι] (st : ClientControllerSupervisor ι) :
    Option (ClientControllerSupervisor ι) :=
  match st.point with
  | .test =>
    match st.chunkedTree[st.it]? with
    | some t =>
      if t.height = 0 then
        some { st with resultStack := st.resultStack ++ [⟨none, some t.getParent⟩], point := .next }
      else none
    | none => none
  | .created c => some { st with computers := st.computers.insert c, point := .inserted c }
  | .inserted c => some { st with resultStack := st.resultStack ++ [⟨some c, none⟩], point := .pushed c }
  | .pushed c => some { st.setIdx c with point := .next }
  | .next => some { st with it := st.it + 1, idx := st.idx + 1, point := .test }

/-- The last thing the thread of `c` does. -/
def finish [DecidableEq ι] (c : ι) (ending : Ending) (st : ClientControllerSupervisor ι) :
    ClientControllerSupervisor ι :=
  { st with
    tasks := Function.update st.tasks c ((st.tasks c).map fun t => { t with ending := some ending }) }

def running (c : ι) (st : ClientControllerSupervisor ι) : Bool :=
  (st.tasks c).any fun t => t.ending.isNone

inductive Event (ι : Type) where
  | createThread (c : ι)
  | statement
  /-- The server answers task `c` with an `int`, and `getIdx()` reads `idx`. -/
  | result (c : ι) (value : { i : Int // InInt i }) (idx : Nat)
  | networkError (c : ι)
  | otherError (c : ι)

def step [DecidableEq ι] [ToString ι] (st : ClientControllerSupervisor ι) :
    Event ι → Option (ClientControllerSupervisor ι)
  | .createThread c => st.createThread c
  | .statement => st.statement
  | .result c value idx =>
    if st.running c && (st.tasks c).all fun t => t.mayGetIdx idx then
      some ((((st.finish c .result).postMessage
        ("Thread(" ++ toString c ++ "): wynik " ++ toString value.1))).notify
          (toString value.1) c idx)
    else none
  | .networkError c => if st.running c then some (st.finish c .networkError).abort else none
  | .otherError c =>
    if st.running c then
      some ((st.finish c .otherError).postMessage
        ("Thread(" ++ toString c ++ ") Nieoczekiwany blad lib XML-RPC "))
    else none

def finished (st : ClientControllerSupervisor ι) : Bool :=
  match st.point with
  | .test => decide (st.chunkedTree.length ≤ st.it)
  | _ => false

def allEnded (st : ClientControllerSupervisor ι) : Prop :=
  ∀ c t, st.tasks c = some t → t.ending ≠ none

end ClientControllerSupervisor

end DispCalc
