import Mathlib.Data.Nat.Notation
import Mathlib.Tactic.NormNum

/-!
# Numbers and numerals

The `int` and `size_t` of the program, the texts that `boost::lexical_cast` reads and
writes, and the four operators.
-/

namespace DispCalc

/-- What stops a computation: an exception, or a step that has no defined result. -/
inductive Fault where
  /-- `boost::bad_lexical_cast`, the only one of these that is an exception. -/
  | badLexicalCast
  /-- `top()`, `pop()` or `back()` of an empty container. -/
  | emptyStack
  | zeroDivisor
  /-- An `int` operation whose result is outside `int`. -/
  | overflow
  /-- An `int` variable is read before any statement has assigned it. -/
  | unassigned
  /-- `emptyBranch.top()` in `regenerate` while `emptyBranch` is empty. -/
  | emptyBranch
  /-- An element of a vector that is not there. -/
  | outOfRange
  /-- A tree index above the largest `int`. -/
  | indexOverflow
  /-- A recursion that has not returned within the depth it was allowed. -/
  | unfinished
  deriving DecidableEq, Repr

/-! ## `int` and `size_t` -/

def intMin : Int := -2147483648
def intMax : Int := 2147483647

/-- The value fits the program's 32-bit `int`. -/
def InInt (i : Int) : Prop := intMin ≤ i ∧ i ≤ intMax

instance (i : Int) : Decidable (InInt i) := inferInstanceAs (Decidable (_ ∧ _))

def checkInt (i : Int) : Except Fault Int := if InInt i then .ok i else .error .overflow

/-- The implicit conversion from `int` to a 64-bit `size_t`. -/
def toSizeT (i : Int) : Nat := (i % 2 ^ 64).toNat

/-- The implicit conversion from a 64-bit `size_t` to `int`. -/
def toInt (n : Nat) : Int := (n : Int).bmod (2 ^ 32)

theorem checkInt_of_inInt {i : Int} (h : InInt i) : checkInt i = .ok i := if_pos h

theorem checkInt_ok {i v : Int} (h : checkInt i = .ok v) : v = i ∧ InInt i := by
  unfold checkInt at h
  split at h
  · rename_i hi
    exact ⟨(Except.ok.inj h).symm, hi⟩
  · cases h

theorem toSizeT_of_nonneg {i : Int} (h0 : 0 ≤ i) (h : InInt i) : toSizeT i = i.toNat := by
  unfold InInt intMin intMax at h
  unfold toSizeT
  omega

theorem toInt_of_le {n : Nat} (h : n ≤ 2147483647) : toInt n = n := by
  unfold toInt
  rw [Int.bmod_eq_of_le] <;> omega

/-! ## Numerals -/

/-- `pos.c_str()[0]`: the terminating NUL for an empty string. -/
def firstChar (pos : String) : Char := pos.toList.headD '\x00'

/-- The test both evaluators use to tell a numeral from an operator. -/
def startsNumeral (pos : String) : Bool := (firstChar pos).isDigit || firstChar pos == '-'

def digitsValue (ds : List Char) : Nat := Nat.ofDigitChars 10 ds 0

def isDigits (ds : List Char) : Bool := !ds.isEmpty && ds.all Char.isDigit

/-- The integer a decimal text stands for, of any size; `none` for other texts. -/
def numeral? (s : String) : Option Int :=
  match s.toList with
  | '-' :: ds => if isDigits ds then some (-(digitsValue ds : Int)) else none
  | '+' :: ds => if isDigits ds then some (digitsValue ds : Int) else none
  | ds => if isDigits ds then some (digitsValue ds : Int) else none

/-- `boost::lexical_cast<int>`: the whole text is a decimal numeral, and it fits `int`. -/
def lexicalCast (s : String) : Except Fault Int :=
  match numeral? s with
  | some i => if InInt i then .ok i else .error .badLexicalCast
  | none => .error .badLexicalCast

theorem lexicalCast_ok {s : String} {i : Int} (h : lexicalCast s = .ok i) :
    numeral? s = some i ∧ InInt i := by
  unfold lexicalCast at h
  split at h
  · rename_i j hj
    split at h
    · rename_i hi
      obtain rfl := Except.ok.inj h
      exact ⟨hj, hi⟩
    · cases h
  · cases h

theorem lexicalCast_of_numeral {s : String} {i : Int} (h : numeral? s = some i) (hi : InInt i) :
    lexicalCast s = .ok i := by
  simp [lexicalCast, h, hi]

theorem lexicalCast_error {s : String} {f : Fault} (h : lexicalCast s = .error f) :
    f = .badLexicalCast := by
  unfold lexicalCast at h
  split at h
  · split at h
    · cases h
    · exact (Except.error.inj h).symm
  · exact (Except.error.inj h).symm

theorem isDigits_head_ne {ds : List Char} {c : Char} (h : isDigits ds = true)
    (hc : c.isDigit = false) : ds.head? ≠ some c := by
  cases ds with
  | nil => simp
  | cons d ds =>
    unfold isDigits at h
    simp only [List.all_cons, Bool.and_eq_true] at h
    rintro heq
    simp only [List.head?_cons, Option.some.injEq] at heq
    rw [heq, hc] at h
    simp at h

theorem numeral?_digits {ds : List Char} (h : isDigits ds = true) :
    numeral? (String.ofList ds) = some (digitsValue ds : Int) := by
  have hm := isDigits_head_ne (c := '-') h (by decide)
  have hp := isDigits_head_ne (c := '+') h (by decide)
  unfold numeral?
  rw [String.toList_ofList]
  split
  · simp at hm
  · simp at hp
  · rw [if_pos h]

theorem startsNumeral_digits {ds : List Char} (h : isDigits ds = true) :
    startsNumeral (String.ofList ds) = true := by
  cases ds with
  | nil => simp [isDigits] at h
  | cons d ds =>
    unfold isDigits at h
    simp only [List.all_cons, Bool.and_eq_true] at h
    simp [startsNumeral, firstChar, h.2.1]

theorem isDigits_toDigits (n : Nat) : isDigits (Nat.toDigits 10 n) = true := by
  have hne : Nat.toDigits 10 n ≠ [] := Nat.toDigits_ne_nil
  have hall : (Nat.toDigits 10 n).all Char.isDigit = true :=
    List.all_eq_true.mpr fun c hc => Nat.isDigit_of_mem_toDigits (by omega) (by omega) hc
  simp [isDigits, hall, hne]

theorem toList_toString_ofNat (n : Nat) : (toString (Int.ofNat n)).toList = Nat.toDigits 10 n :=
  Nat.toList_repr

theorem toList_toString_negSucc (n : Nat) :
    (toString (Int.negSucc n)).toList = '-' :: Nat.toDigits 10 (n + 1) := by
  change ("-" ++ (n + 1).repr).toList = _
  rw [String.toList_append, Nat.toList_repr]
  rfl

theorem numeral?_toString (i : Int) : numeral? (toString i) = some i := by
  cases i with
  | ofNat n =>
    have h := numeral?_digits (isDigits_toDigits n)
    rw [← toList_toString_ofNat, String.ofList_toList] at h
    rw [h, toList_toString_ofNat, digitsValue, Nat.ofDigitChars_ten_toDigits]
    rfl
  | negSucc n =>
    unfold numeral?
    rw [toList_toString_negSucc]
    simp only [isDigits_toDigits, if_true, digitsValue, Nat.ofDigitChars_ten_toDigits]
    rfl

theorem startsNumeral_toString (i : Int) : startsNumeral (toString i) = true := by
  cases i with
  | ofNat n =>
    have h := startsNumeral_digits (isDigits_toDigits n)
    rwa [← toList_toString_ofNat, String.ofList_toList] at h
  | negSucc n =>
    unfold startsNumeral firstChar
    rw [toList_toString_negSucc]
    rfl

theorem toString_ne (i : Int) : toString i ≠ "" := by
  intro h
  have hstart := startsNumeral_toString i
  rw [h] at hstart
  revert hstart
  decide

theorem lexicalCast_toString {i : Int} (h : InInt i) : lexicalCast (toString i) = .ok i :=
  lexicalCast_of_numeral (numeral?_toString i) h

/-! ## The operators -/

inductive Op where
  | add
  | subtract
  | multiply
  | divide
  deriving DecidableEq, Repr

def Op.name : Op → String
  | add => "ADD"
  | subtract => "SUBTRACT"
  | multiply => "MULTIPLY"
  | divide => "DIVIDE"

def Op.exact : Op → Int → Int → Int
  | add, x, y => x + y
  | subtract, x, y => x - y
  | multiply, x, y => x * y
  | divide, x, y => x.tdiv y

def divInt (x y : Int) : Except Fault Int :=
  if y = 0 then .error .zeroDivisor else checkInt (x.tdiv y)

def Op.apply : Op → Int → Int → Except Fault Int
  | add, x, y => checkInt (x + y)
  | subtract, x, y => checkInt (x - y)
  | multiply, x, y => checkInt (x * y)
  | divide, x, y => divInt x y

/-- `ExprTree::isOp`. -/
def isOp (x : String) : Bool := "ADD" == x || "SUBTRACT" == x || "MULTIPLY" == x || "DIVIDE" == x

@[simp] theorem isOp_name (o : Op) : isOp o.name = true := by cases o <;> decide

theorem isOp_iff (x : String) : isOp x = true ↔ ∃ o : Op, x = o.name := by
  constructor
  · intro h
    unfold isOp at h
    simp only [Bool.or_eq_true, beq_iff_eq] at h
    rcases h with ((h | h) | h) | h
    · exact ⟨.add, h.symm⟩
    · exact ⟨.subtract, h.symm⟩
    · exact ⟨.multiply, h.symm⟩
    · exact ⟨.divide, h.symm⟩
  · rintro ⟨o, rfl⟩
    exact isOp_name o

@[simp] theorem startsNumeral_name (o : Op) : startsNumeral o.name = false := by
  cases o <;> decide

theorem isOp_of_startsNumeral {x : String} (h : startsNumeral x = true) : isOp x = false := by
  by_contra hop
  obtain ⟨o, rfl⟩ := (isOp_iff x).mp (by simpa using hop)
  simp at h

theorem lexicalCast_name (o : Op) : lexicalCast o.name = .error .badLexicalCast := by
  cases o <;> decide

theorem Op.apply_ok_iff {o : Op} {x y v : Int} :
    o.apply x y = .ok v ↔ (o = .divide → y ≠ 0) ∧ v = o.exact x y ∧ InInt (o.exact x y) := by
  have hcheck : ∀ i : Int, checkInt i = .ok v ↔ v = i ∧ InInt i := fun i =>
    ⟨checkInt_ok, fun h => by rw [checkInt_of_inInt h.2, h.1]⟩
  rcases o
  case divide =>
    by_cases hy : y = 0
    · simp [Op.apply, divInt, hy]
    · simp [Op.apply, divInt, hy, hcheck, Op.exact]
  all_goals simp [Op.apply, hcheck, Op.exact]

theorem Op.apply_error {o : Op} {x y : Int} {f : Fault} (h : o.apply x y = .error f) :
    f = .overflow ∨ f = .zeroDivisor := by
  have hcheck : ∀ i : Int, checkInt i = .error f → f = .overflow := by
    intro i hi
    unfold checkInt at hi
    split at hi
    · cases hi
    · exact (Except.error.inj hi).symm
  rcases o
  case divide =>
    simp only [Op.apply, divInt] at h
    split at h
    · exact Or.inr (Except.error.inj h).symm
    · exact Or.inl (hcheck _ h)
  all_goals exact Or.inl (hcheck _ h)

end DispCalc
