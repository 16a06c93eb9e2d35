import DispCalc.Computer

/-!
# The server's methods

`ServerMethodCompute` evaluates the token list of a request and records each operation in
the status table that `ServerMethodStatus` reads.
-/

open Postfix

namespace DispCalc

/-- `__actual_status`: the last operation of each identifier. -/
abbrev StatusTable := String → Option String

def postStat (stat ident : String) (table : StatusTable) : StatusTable :=
  fun key => if key = ident then some stat else table key

namespace ServerMethodStatus

def execute (ident : String) (table : StatusTable) : String :=
  match table ident with
  | none => "Serwer:: Brak stanu wykonania"
  | some stat => stat

end ServerMethodStatus

namespace ServerMethodCompute

/-- `numStack_`, and the local `res`, which has no value before the first operator. -/
structure State where
  numStack : List Int := []
  res : Option Int := none

def operation (pos : String) (arg1 arg2 res : Int) : String :=
  "Server:: " ++ pos ++ " arg: " ++ toString arg1 ++ " " ++ toString arg2 ++ " -> " ++ toString res

/-- The value of `res` after the four tests. -/
def assign (pos : String) (arg1 arg2 : Int) (res : Option Int) : Except Fault (Option Int) := do
  let res ← if pos = "ADD" then some <$> checkInt (arg1 + arg2) else pure res
  let res ← if pos = "SUBTRACT" then some <$> checkInt (arg2 - arg1) else pure res
  let res ← if pos = "MULTIPLY" then some <$> checkInt (arg1 * arg2) else pure res
  if pos = "DIVIDE" then some <$> divInt arg2 arg1 else pure res

/-- One iteration of the loop of `execute`, with the status it posts. -/
def step (st : State) (pos : String) : Except Fault (State × Option String) :=
  if startsNumeral pos then do
    let num ← lexicalCast pos
    return ({ st with numStack := num :: st.numStack }, none)
  else do
    let (arg1, numStack) ← pop st.numStack
    let (arg2, numStack) ← pop numStack
    let res ← assign pos arg1 arg2 st.res
    match res with
    | none => .error .unassigned
    | some r => return (⟨r :: numStack, some r⟩, some (operation pos arg1 arg2 r))

def loop (identifier : String) :
    Nat → State → StatusTable → List String → Except (Nat × Fault) State × StatusTable
  | _, st, table, [] => (.ok st, table)
  | i, st, table, pos :: rest =>
    match step st pos with
    | .error e => (.error (i, e), table)
    | .ok (st', none) => loop identifier (i + 1) st' table rest
    | .ok (st', some stat) => loop identifier (i + 1) st' (postStat stat identifier table) rest

/-- `params[0]` is the array of strings and `params[1]["id"]` the identifier. The library
makes a new object for each request, so `numStack_` starts empty. -/
def execute (params : List String) (identifier : String) (table : StatusTable) :
    Except (Nat × Fault) Int × StatusTable :=
  match loop identifier 0 {} table params with
  | (.error e, table) => (.error e, table)
  | (.ok st, table) =>
    match st.numStack with
    | [] => (.error (params.length, .emptyStack), table)
    | num :: _ => (.ok num, table)

/-! ## The result does not depend on the status table -/

/-- One iteration without the status. -/
def eval (st : State) (pos : String) : Except Fault State := (step st pos).map Prod.fst

theorem loop_fst (identifier : String) (i : Nat) (st : State) (table : StatusTable)
    (params : List String) :
    (loop identifier i st table params).1 = foldAt eval i st params := by
  induction params generalizing i st table with
  | nil => rfl
  | cons pos rest ih =>
    rw [loop]
    split
    · rename_i e h
      rw [foldAt_cons_error (by rw [eval, h]; rfl)]
    · rename_i st' h
      rw [foldAt_cons_ok (by rw [eval, h]; rfl), ih]
    · rename_i st' stat h
      rw [foldAt_cons_ok (by rw [eval, h]; rfl), ih]

/-- The answer to a request: what `execute` puts in `result`. -/
def answer (params : List String) : Except (Nat × Fault) Int :=
  match foldAt eval 0 {} params with
  | .error e => .error e
  | .ok st =>
    match st.numStack with
    | [] => .error (params.length, .emptyStack)
    | num :: _ => .ok num

theorem execute_fst (params : List String) (identifier : String) (table : StatusTable) :
    (execute params identifier table).1 = answer params := by
  have h := loop_fst identifier 0 {} table params
  unfold execute answer
  rcases hl : loop identifier 0 {} table params with ⟨result, table'⟩
  rw [hl] at h
  subst h
  rcases foldAt eval 0 {} params with e | ⟨_ | ⟨num, rest⟩, res⟩ <;> rfl

/-! ## What one iteration does -/

theorem eval_numeral {pos : String} (h : startsNumeral pos = true) (st : State) :
    eval st pos = (lexicalCast pos).map fun num => { st with numStack := num :: st.numStack } := by
  rw [eval, step, if_pos h]
  rcases lexicalCast pos <;> rfl

theorem assign_name (o : Op) (arg1 arg2 : Int) (res : Option Int) :
    assign o.name arg1 arg2 res = some <$> o.apply arg2 arg1 := by
  have hadd : checkInt (arg1 + arg2) = checkInt (arg2 + arg1) := by rw [Int.add_comm]
  have hmul : checkInt (arg1 * arg2) = checkInt (arg2 * arg1) := by rw [Int.mul_comm]
  rcases o <;>
    simp only [assign, Op.name, Op.apply, if_true, String.reduceEq, if_false, pure_bind, hadd, hmul,
      bind_pure]

theorem assign_unknown {pos : String} (h : isOp pos = false) (arg1 arg2 : Int) (res : Option Int) :
    assign pos arg1 arg2 res = .ok res := by
  have hne : ∀ o : Op, pos ≠ o.name := fun o heq => by simp [heq] at h
  have h1 := hne .add
  have h2 := hne .subtract
  have h3 := hne .multiply
  have h4 := hne .divide
  simp only [Op.name] at h1 h2 h3 h4
  simp only [assign, h1, h2, h3, h4, if_false, pure_bind]
  rfl

/-- The end of an operator iteration: `res` is read and pushed. -/
def push (numStack : List Int) : Option Int → Except Fault State
  | none => .error .unassigned
  | some r => .ok ⟨r :: numStack, some r⟩

theorem eval_two {pos : String} (h : startsNumeral pos = false) (arg1 arg2 : Int)
    (numStack : List Int) (res : Option Int) :
    eval ⟨arg1 :: arg2 :: numStack, res⟩ pos = assign pos arg1 arg2 res >>= push numStack := by
  rw [eval, step, if_neg (by simp [h])]
  simp only [pop, bind, Except.bind]
  rcases assign pos arg1 arg2 res with e | _ | r <;> rfl

theorem eval_few {pos : String} (h : startsNumeral pos = false) {st : State}
    (hlen : st.numStack.length < 2) : eval st pos = .error .emptyStack := by
  obtain ⟨numStack, res⟩ := st
  rw [eval, step, if_neg (by simp [h])]
  match numStack, hlen with
  | [], _ => rfl
  | [_], _ => rfl

/-! ## Requests that are expressions -/

theorem stackMachine {α : Type} {text : α → String} (hstarts : ∀ a, startsNumeral (text a) = true)
    {lit : α → Except Fault Int} (hreads : ∀ a, lexicalCast (text a) = lit a) :
    StackMachine text Op.name lit Op.apply State.numStack eval where
  operand s a v hv := ⟨_, by rw [eval_numeral (hstarts a), hreads, hv]; rfl, rfl⟩
  operator s o x y v rest hs hv := by
    obtain ⟨numStack, res⟩ := s
    subst hs
    exact ⟨⟨v :: rest, some v⟩, by rw [eval_two (by simp), assign_name, hv]; rfl, rfl⟩
  operand_error s a err herr := by
    rw [eval_numeral (hstarts a), hreads, herr]
    rfl
  operator_error s o x y err rest hs herr := by
    obtain ⟨numStack, res⟩ := s
    subst hs
    rw [eval_two (by simp), assign_name, herr]
    rfl

theorem execute_code {α : Type} {text : α → String} (hstarts : ∀ a, startsNumeral (text a) = true)
    {lit : α → Except Fault Int} (hreads : ∀ a, lexicalCast (text a) = lit a) (e : Expr α Op)
    (identifier : String) (table : StatusTable) :
    match e.eval lit Op.apply with
    | .ok v => (execute (e.code text Op.name) identifier table).1 = .ok v
    | .error f => ∃ i, (execute (e.code text Op.name) identifier table).1 = .error (i, f) := by
  have hm := stackMachine hstarts hreads
  rw [execute_fst, answer, ← List.append_nil (e.code text Op.name)]
  rcases he : e.eval lit Op.apply with f | v
  · obtain ⟨i, hrun⟩ := hm.run_code_error he 0 {} []
    exact ⟨i, by rw [hrun]⟩
  · obtain ⟨s, hs, hrun⟩ := hm.run_code he 0 {} []
    simp only [hrun, foldAt_nil, hs]

theorem execute_tokens {e : IntExpr} {v : Int} (h : e.value = .ok v) (identifier : String)
    (table : StatusTable) : (execute e.tokens identifier table).1 = .ok v := by
  have hexec := execute_code IntNumeral.starts IntNumeral.reads e identifier table
  rw [show e.eval (fun n => .ok n.value) Op.apply = .ok v from h] at hexec
  exact hexec

end ServerMethodCompute

end DispCalc
