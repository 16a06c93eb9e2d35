import DispCalc.Numbers

/-!
# `ExprTree`

The tree of a postfix list, kept in a vector: the node at index `n` has its children at `2n`
and `2n + 1`, and the slots between nodes hold the null mark.
-/

namespace DispCalc

/-- `values_`, indexed from 1. -/
structure ExprTree where
  values : List String := []
  deriving DecidableEq, Repr

namespace ExprTree

def null : String := "N"

/-! ## Indices -/

def leftN (nth : Nat) : Except Fault Nat :=
  if nth * 2 ≤ 2147483647 then .ok (nth * 2) else .error .indexOverflow

def rightN (nth : Nat) : Except Fault Nat :=
  if nth * 2 + 1 ≤ 2147483647 then .ok (nth * 2 + 1) else .error .indexOverflow

def parentN (nth : Nat) : Nat := (nth - nth % 2) / 2

def add (t : ExprTree) (nth : Nat) (v : String) : ExprTree :=
  if t.values.length < nth then
    ⟨t.values ++ List.replicate (nth - 1 - t.values.length) null ++ [v]⟩
  else ⟨t.values.set (nth - 1) v⟩

/-- `values_.at` throws for index 0. No caller passes it, and the null mark stands for it. -/
def get (t : ExprTree) : Nat → String
  | 0 => null
  | n + 1 => t.values.getD n null

def getParent (t : ExprTree) : String := t.get 1

/-- `height()` with its default argument 1, whose logarithm is 0: every call is of this form.
The logarithm of an empty vector's size is converted to the smallest `int`. -/
def height (t : ExprTree) : Int := if t.values = [] then intMin else Nat.log2 t.values.length

/-- The filled slots and their indices. -/
def print (t : ExprTree) : String :=
  "tree:H(" ++ toString t.height ++ ") " ++
    String.join ((t.values.zipIdx 1).map fun (v, i) =>
      if v != null then toString i ++ "\x7b" ++ v ++ "\x7d " else "") ++ "\n"

/-! ## From a stack to a tree -/

/-- The variables of `regenerate`. -/
structure Regen where
  tree : ExprTree
  emptyBranch : List Nat
  wasOp : Bool
  parent : Nat

/-- One iteration of the loop of `regenerate`, which reads the stack from its end. -/
def regenStep (s : Regen) (v : String) : Except Fault Regen :=
  if s.wasOp then do
    let right ← rightN s.parent
    let tree := s.tree.add right v
    let emptyBranch := s.parent :: s.emptyBranch
    if isOp v then return ⟨tree, emptyBranch, true, right⟩
    else return ⟨tree, emptyBranch, false, s.parent⟩
  else
    match s.emptyBranch with
    | [] => .error .emptyBranch
    | parent :: emptyBranch => do
      let left ← leftN parent
      let tree := s.tree.add left v
      if isOp v then return ⟨tree, emptyBranch, true, left⟩
      else return ⟨tree, emptyBranch, false, parentN parent⟩

def regenerate (stack : List String) : Except Fault ExprTree :=
  match stack.reverse with
  | [] => .ok {}
  | v :: rest => do
    let s ← rest.foldlM regenStep ⟨({} : ExprTree).add 1 v, [], true, 1⟩
    return s.tree

/-! ## From a tree to a stack -/

/-- `toStack` with a bound on the depth of its recursion. An index that doubles past the
vector reads as null, so the bound of `toStack` is never met (`toStack_eq`). -/
def toStackFrom (t : ExprTree) : Nat → Nat → List String
  | 0, nth => [t.get nth]
  | depth + 1, nth =>
    (if isOp (t.get nth) && t.get (nth * 2) != null then toStackFrom t depth (nth * 2) else []) ++
    (if isOp (t.get nth) && t.get (nth * 2 + 1) != null then toStackFrom t depth (nth * 2 + 1)
      else []) ++
    [t.get nth]

def toStack (t : ExprTree) (nth : Nat) : List String := toStackFrom t (t.values.length + 1) nth

/-! ## Cutting -/

/-- `chunk` with a bound on the depth of its recursion: with a negative `maxH` the source
recurses for ever. -/
def chunkFrom (maxH : Int) : Nat → ExprTree → Except Fault (List ExprTree)
  | 0, _ => .error .unfinished
  | depth + 1, t =>
    if t.height ≤ maxH then .ok [t]
    else do
      let e1 ← regenerate (t.toStack 2)
      let l1 ← chunkFrom maxH depth e1
      let e2 ← regenerate (t.toStack 3)
      let l2 ← chunkFrom maxH depth e2
      return l1 ++ l2 ++ [({} : ExprTree).add 1 (t.get 1)]

def chunk (t : ExprTree) (maxH : Int) : Except Fault (List ExprTree) :=
  chunkFrom maxH (t.values.length + 1) t

end ExprTree

end DispCalc
