import DispCalc.Lib.Postfix
import DispCalc.Numbers

/-!
# `Computer<std::list<std::string>, int>`

The client's evaluator of a postfix token list, and what its loop does on the code of an
expression.
-/

open Postfix

namespace DispCalc

/-- `top()` and `pop()` of a `std::stack<int>`. -/
def pop : List Int → Except Fault (Int × List Int)
  | [] => .error .emptyStack
  | x :: xs => .ok (x, xs)

namespace Computer

/-- The variables of `compute` that one iteration leaves to the next. -/
structure State where
  nums : List Int := []
  res : Int := 0

/-- The body of an operator case: two pops, then `res`. -/
def operate (st : State) (f : Int → Int → Except Fault Int) : Except Fault State := do
  let (arg1, nums) ← pop st.nums
  let (arg2, nums) ← pop nums
  let res ← f arg1 arg2
  return { nums, res }

/-- One iteration of the loop of `compute`. -/
def step (st : State) (pos : String) : Except Fault State :=
  if startsNumeral pos then do
    let num ← lexicalCast pos
    return { st with nums := num :: st.nums }
  else do
    let st ← if pos = "ADD" then operate st fun arg1 arg2 => checkInt (arg1 + arg2) else pure st
    let st ← if pos = "SUBTRACT" then operate st fun arg1 arg2 => checkInt (arg2 - arg1) else pure st
    let st ← if pos = "MULTIPLY" then operate st fun arg1 arg2 => checkInt (arg1 * arg2) else pure st
    let st ← if pos = "DIVIDE" then operate st fun arg1 arg2 => divInt arg2 arg1 else pure st
    -- A token that is no operator gets here too, and pushes the last result again.
    return { st with nums := st.res :: st.nums }

/-- A failure comes with the position of the token it happened at; the position after the
last token stands for `nums.top()` at the end. -/
def compute (stack : List String) : Except (Nat × Fault) String :=
  match foldAt step 0 {} stack with
  | .error e => .error e
  | .ok st =>
    match st.nums with
    | [] => .error (stack.length, .emptyStack)
    | num :: _ => .ok (toString num)

/-! ## What one iteration does -/

theorem step_numeral {pos : String} (h : startsNumeral pos = true) (st : State) :
    step st pos = (lexicalCast pos).map fun num => { st with nums := num :: st.nums } := by
  rw [step, if_pos h]
  cases lexicalCast pos <;> rfl

theorem operate_two (arg1 arg2 res : Int) (nums : List Int) (f : Int → Int → Except Fault Int) :
    operate ⟨arg1 :: arg2 :: nums, res⟩ f = (f arg1 arg2).map fun v => ⟨nums, v⟩ := by
  simp only [operate, pop, bind, Except.bind]
  cases f arg1 arg2 <;> rfl

theorem operate_few {st : State} (h : st.nums.length < 2) (f : Int → Int → Except Fault Int) :
    operate st f = .error .emptyStack := by
  obtain ⟨nums, res⟩ := st
  match nums, h with
  | [], _ => rfl
  | [_], _ => rfl

theorem step_name (o : Op) (st : State) :
    step st o.name =
      (operate st fun arg1 arg2 => o.apply arg2 arg1).map fun s => { s with nums := s.res :: s.nums } := by
  have hcomm : ∀ arg1 arg2 : Int, checkInt (arg1 + arg2) = checkInt (arg2 + arg1) := fun a b => by
    rw [Int.add_comm]
  have hmul : ∀ arg1 arg2 : Int, checkInt (arg1 * arg2) = checkInt (arg2 * arg1) := fun a b => by
    rw [Int.mul_comm]
  rw [step, if_neg (by simp)]
  cases o with
  | add =>
    simp only [Op.name, Op.apply, if_true, String.reduceEq, if_false, pure_bind, hcomm]
    cases operate st fun arg1 arg2 => checkInt (arg2 + arg1) <;> rfl
  | subtract =>
    simp only [Op.name, Op.apply, if_true, String.reduceEq, if_false, pure_bind]
    cases operate st fun arg1 arg2 => checkInt (arg2 - arg1) <;> rfl
  | multiply =>
    simp only [Op.name, Op.apply, if_true, String.reduceEq, if_false, pure_bind, hmul]
    cases operate st fun arg1 arg2 => checkInt (arg2 * arg1) <;> rfl
  | divide =>
    simp only [Op.name, Op.apply, if_true, String.reduceEq, if_false, pure_bind]
    cases operate st fun arg1 arg2 => divInt arg2 arg1 <;> rfl

theorem step_name_two (o : Op) (arg1 arg2 res : Int) (nums : List Int) :
    step ⟨arg1 :: arg2 :: nums, res⟩ o.name = (o.apply arg2 arg1).map fun v => ⟨v :: nums, v⟩ := by
  rw [step_name, operate_two]
  cases o.apply arg2 arg1 <;> rfl

theorem step_name_few (o : Op) {st : State} (h : st.nums.length < 2) :
    step st o.name = .error .emptyStack := by
  rw [step_name, operate_few h]
  rfl

end Computer

/-! ## Expressions over `int` numerals -/

/-- A token that both evaluators read as an `int`. -/
structure IntNumeral where
  text : String
  value : Int
  starts : startsNumeral text = true
  reads : lexicalCast text = .ok value

def IntNumeral.ofInt (i : Int) (h : InInt i) : IntNumeral :=
  ⟨toString i, i, startsNumeral_toString i, lexicalCast_toString h⟩

abbrev IntExpr := Expr IntNumeral Op

namespace IntExpr

def tokens (e : IntExpr) : List String := e.code IntNumeral.text Op.name

/-- The value, if every operation has one in `int`. -/
def value (e : IntExpr) : Except Fault Int := e.eval (fun n => .ok n.value) Op.apply

theorem value_inInt {e : IntExpr} {v : Int} (h : e.value = .ok v) : InInt v := by
  cases e with
  | leaf n =>
    obtain rfl := Except.ok.inj h
    exact (lexicalCast_ok n.reads).2
  | node o l r =>
    obtain ⟨x, y, -, -, hv⟩ := Expr.eval_node_ok h
    obtain ⟨-, rfl, hi⟩ := Op.apply_ok_iff.mp hv
    exact hi

end IntExpr

namespace Computer

theorem stackMachine :
    StackMachine IntNumeral.text Op.name (fun n => (.ok n.value : Except Fault Int)) Op.apply
      State.nums step where
  operand s n v hv := by
    obtain rfl := Except.ok.inj hv
    exact ⟨_, by rw [step_numeral n.starts, n.reads]; rfl, rfl⟩
  operator s o x y v rest hs hv := by
    obtain ⟨nums, res⟩ := s
    subst hs
    exact ⟨⟨v :: rest, v⟩, by rw [step_name_two, hv]; rfl, rfl⟩
  operand_error s n err herr := by cases herr
  operator_error s o x y err rest hs herr := by
    obtain ⟨nums, res⟩ := s
    subst hs
    rw [step_name_two, herr]
    rfl

theorem compute_tokens {e : IntExpr} {v : Int} (h : e.value = .ok v) :
    compute e.tokens = .ok (toString v) := by
  obtain ⟨s, hs, hrun⟩ := stackMachine.run_code h 0 {} []
  rw [List.append_nil] at hrun
  unfold compute IntExpr.tokens
  rw [hrun, foldAt_nil]
  simp only [hs]

end Computer

end DispCalc
