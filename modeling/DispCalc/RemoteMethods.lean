import DispCalc.Iqxmlrpc.Message
import DispCalc.ServerMethods

/-!
# The methods as the server calls them

A method gets the values of a request and leaves a value, or throws. On the requests of a client,
`ServerMethodCompute` is the evaluator of token lists.
-/

namespace DispCalc

open Iqxmlrpc

/-- What stops a method: a `std::exception` with its `what()`, or a step without a defined result. -/
inductive Thrown where
  | exception (what : String)
  | undefined
  deriving DecidableEq, Repr

def Thrown.of {α : Type} (x : Except Exception α) : Except Thrown α :=
  x.mapError fun e => .exception e.what

/-- `what()` of `boost::bad_lexical_cast`. -/
def badLexicalCast : String :=
  "bad lexical cast: source type value could not be interpreted as target"

def Thrown.ofFault : Fault → Thrown
  | .badLexicalCast => .exception badLexicalCast
  | _ => .undefined

variable {δ : Type}

/-- `params[i]`, without a test of the size. -/
def param (params : List (Value δ)) (i : Nat) : Except Thrown (Value δ) :=
  params[i]?.elim (.error .undefined) .ok

/-- `params[i]["id"].get_string()`. -/
def paramId (params : List (Value δ)) (i : Nat) : Except Thrown String := do
  let s ← Thrown.of ((← param params i).field "id")
  Thrown.of s.getString

/-- `result = num`. -/
def intResult (num : Int) : Except Thrown (Value δ) :=
  if h : InInt num then .ok (.int ⟨num, h⟩) else .error .undefined

namespace ServerMethodCompute

/-- The loop over the values of `params[0]`, each of which is asked for its string first. -/
def callLoop (identifier : String) :
    State → StatusTable → List (Value δ) → Except Thrown State × StatusTable
  | st, table, [] => (.ok st, table)
  | st, table, v :: rest =>
    match v.getString with
    | .error e => (.error (.exception e.what), table)
    | .ok pos =>
      match step st pos with
      | .error e => (.error (.ofFault e), table)
      | .ok (st', none) => callLoop identifier st' table rest
      | .ok (st', some stat) => callLoop identifier st' (postStat stat identifier table) rest

/-- `params[1]["id"]`, then the array `params[0]`. -/
def arguments (params : List (Value δ)) : Except Thrown (String × List (Value δ)) := do
  let identifier ← paramId params 1
  let values ← Thrown.of (← param params 0).theArray
  return (identifier, values)

def call (params : List (Value δ)) (table : StatusTable) : Except Thrown (Value δ) × StatusTable :=
  match arguments params with
  | .error e => (.error e, table)
  | .ok (identifier, values) =>
    match callLoop identifier {} table values with
    | (.error e, table) => (.error e, table)
    | (.ok st, table) =>
      match st.numStack with
      | [] => (.error .undefined, table)
      | num :: _ => (intResult num, table)

end ServerMethodCompute

def ServerMethodStatus.call (params : List (Value δ)) (table : StatusTable) : Except Thrown (Value δ) :=
  (paramId params 0).map fun ident => .string (execute ident table)

def ServerMethodConnTest.call : Except Thrown (Value δ) := intResult 1

/-! ## The methods that are registered -/

/-- The methods that `initServer` registers, and the one that `enable_introspection` does. -/
inductive RemoteMethod where
  | compute
  | connTest
  | status
  | listMethods
  deriving DecidableEq, Repr

namespace RemoteMethod

/-- The factories, in the order of their names. -/
def factories : List (String × RemoteMethod) :=
  [("ServerMethodCompute", compute), ("ServerMethodConnTest", connTest), ("ServerMethodStatus", status),
    ("system.listMethods", listMethods)]

/-- `create_method`. -/
def create (name : String) : Except Exception RemoteMethod :=
  (factories.lookup name).elim (.error (.unknownMethod name)) .ok

def call (params : List (Value δ)) (table : StatusTable) : RemoteMethod → Except Thrown (Value δ) × StatusTable
  | compute => ServerMethodCompute.call params table
  | connTest => (ServerMethodConnTest.call, table)
  | status => (ServerMethodStatus.call params table, table)
  | listMethods => (.ok (.array (factories.map fun f => .string f.1)), table)

/-- `process_actual_execution`: no exception here is a `Fault`, so each has the code -1. -/
def response (m : RemoteMethod) (params : List (Value δ)) (table : StatusTable) :
    Option (Response δ) × StatusTable :=
  match m.call params table with
  | (.ok v, table) => (some (.ok v), table)
  | (.error (.exception what), table) => (some (.fault ⟨-1, by decide⟩ what), table)
  | (.error .undefined, table) => (none, table)

end RemoteMethod

/-! ## The results are `int`s -/

theorem Op.apply_inInt {o : Op} {x y v : Int} (h : o.apply x y = .ok v) : InInt v := by
  obtain ⟨-, rfl, hexact⟩ := Op.apply_ok_iff.mp h
  exact hexact

namespace ServerMethodCompute

/-- Every number that the method has is an `int`. -/
structure State.Ints (st : State) : Prop where
  numStack : ∀ num ∈ st.numStack, InInt num
  res : ∀ r, st.res = some r → InInt r

theorem assign_inInt {pos : String} {arg1 arg2 : Int} {res res' : Option Int}
    (h : assign pos arg1 arg2 res = .ok res') (hres : ∀ r, res = some r → InInt r) :
    ∀ r, res' = some r → InInt r := by
  by_cases hop : isOp pos = true
  · obtain ⟨o, rfl⟩ := (isOp_iff pos).mp hop
    rw [assign_name] at h
    obtain ⟨v, hv, rfl⟩ := Except.map_eq_ok.mp h
    rintro r ⟨⟩
    exact Op.apply_inInt hv
  · rw [assign_unknown (Bool.not_eq_true _ ▸ hop)] at h
    obtain rfl := Except.ok.inj h
    exact hres

theorem eval_ints {st st' : State} {pos : String} (hst : st.Ints) (h : eval st pos = .ok st') : st'.Ints := by
  by_cases hstarts : startsNumeral pos = true
  · rw [eval_numeral hstarts, Except.map_eq_ok] at h
    obtain ⟨num, hnum, rfl⟩ := h
    refine ⟨fun n hn => ?_, hst.res⟩
    rcases List.mem_cons.mp hn with rfl | hn
    · exact (lexicalCast_ok hnum).2
    · exact hst.numStack n hn
  · rw [Bool.not_eq_true] at hstarts
    obtain ⟨numStack, res⟩ := st
    rcases numStack with _ | ⟨arg1, _ | ⟨arg2, numStack⟩⟩
    · rw [eval_few hstarts (by simp)] at h
      cases h
    · rw [eval_few hstarts (by simp)] at h
      cases h
    · rw [eval_two hstarts] at h
      obtain ⟨res', hassign, h⟩ := Except.bind_eq_ok.mp h
      have hres := assign_inInt hassign hst.res
      cases res' with
      | none => cases h
      | some r =>
        obtain rfl := Except.ok.inj h
        refine ⟨fun n hn => ?_, hres⟩
        rcases List.mem_cons.mp hn with rfl | hn
        · exact hres n rfl
        · exact hst.numStack n (by simp [hn])

theorem foldAt_ints {params : List String} {i : Nat} {st st' : State} (hst : st.Ints)
    (h : Postfix.foldAt eval i st params = .ok st') : st'.Ints := by
  induction params generalizing i st with
  | nil =>
    obtain rfl := Except.ok.inj h
    exact hst
  | cons pos rest ih =>
    rcases hpos : eval st pos with f | st1
    · rw [Postfix.foldAt_cons_error hpos] at h
      cases h
    · rw [Postfix.foldAt_cons_ok hpos] at h
      exact ih (eval_ints hst hpos) h

theorem answer_inInt {params : List String} {v : Int} (h : answer params = .ok v) : InInt v := by
  unfold answer at h
  split at h
  · cases h
  · rename_i st hst
    have hints := foldAt_ints ⟨by simp, by simp⟩ hst
    split at h
    · cases h
    · rename_i num rest hstack
      obtain rfl := Except.ok.inj h
      exact hints.numStack num (by simp [hstack])

/-! ## The requests of a client -/

/-- The parameters of a client: the tokens, and the identifier that the status is posted under. -/
def params (tokens : List String) (identifier : String) : List (Value δ) :=
  [.array (tokens.map .string), .struct [("id", .string identifier)]]

theorem callLoop_strings (identifier : String) (i : Nat) (st : State) (table : StatusTable)
    (tokens : List String) : callLoop (δ := δ) identifier st table (tokens.map .string) =
      ((loop identifier i st table tokens).1.mapError fun e => .ofFault e.2,
        (loop identifier i st table tokens).2) := by
  induction tokens generalizing i st table with
  | nil => rfl
  | cons pos rest ih =>
    simp only [List.map_cons, callLoop, loop, Value.getString]
    rcases step st pos with e | ⟨st', _ | stat⟩
    · rfl
    · exact ih (i + 1) _ _
    · exact ih (i + 1) _ _

/-- **The method refines the evaluator**: on a client's parameters, its result and the status table
are those of `execute`. -/
theorem call_params (tokens : List String) (identifier : String) (table : StatusTable) :
    call (params tokens identifier : List (Value δ)) table =
      ((execute tokens identifier table).1.mapError (fun e => .ofFault e.2) >>= intResult,
        (execute tokens identifier table).2) := by
  have harguments : arguments (params tokens identifier : List (Value δ)) =
      .ok (identifier, tokens.map .string) := rfl
  rw [call, harguments]
  simp only [callLoop_strings identifier 0]
  unfold execute
  rcases loop identifier 0 {} table tokens with ⟨e | ⟨_ | ⟨num, rest⟩, res⟩, table'⟩ <;> rfl

theorem response_of_value {tokens : List String} {v : Int} (h : answer tokens = .ok v) (identifier : String)
    (table : StatusTable) :
    (RemoteMethod.compute.response (params tokens identifier : List (Value δ)) table).1 =
      some (.ok (.int ⟨v, answer_inInt h⟩)) := by
  rw [RemoteMethod.response, RemoteMethod.call, call_params, execute_fst, h]
  simp only [Except.mapError, Except.ok_bind, intResult, dif_pos (answer_inInt h)]

theorem response_of_fault {tokens : List String} {i : Nat} {f : Fault} (h : answer tokens = .error (i, f))
    (identifier : String) (table : StatusTable) :
    (RemoteMethod.compute.response (params tokens identifier : List (Value δ)) table).1 =
      if f = .badLexicalCast then some (.fault ⟨-1, by decide⟩ badLexicalCast) else none := by
  rw [RemoteMethod.response, RemoteMethod.call, call_params, execute_fst, h]
  cases f <;> rfl

end ServerMethodCompute

end DispCalc
