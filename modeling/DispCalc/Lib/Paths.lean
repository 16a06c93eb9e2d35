import DispCalc.Lib.Layout
import DispCalc.Lib.Postfix
import Mathlib.Order.Bounds.Basic

/-!
# Paths and indices

The binary digits of an index behind the first one are a path from the root: 0 leads to the left
child and 1 to the right one.
-/

namespace Layout

open Postfix

def child : Side → Nat → Nat
  | .left, n => 2 * n
  | .right, n => 2 * n + 1

/-- The index at the end of a path from `n`. -/
def index (n : Nat) (p : List Side) : Nat := p.foldl (fun n s => child s n) n

/-- The path from index 1 to `i`. -/
def route (i : Nat) : List Side :=
  if i ≤ 1 then [] else route (i / 2) ++ [if i % 2 = 0 then .left else .right]

theorem child_div (s : Side) (n : Nat) : child s n / 2 = n := by
  unfold child
  cases s with
  | left => simp only; omega
  | right => simp only; omega

theorem le_child (s : Side) (n : Nat) : 2 * n ≤ child s n := by
  unfold child
  cases s with
  | left => simp only; omega
  | right => simp only; omega

theorem below_index (n : Nat) (p : List Side) : Below n (index n p) := by
  induction p generalizing n with
  | nil => exact below_self n
  | cons s p ih => exact (ih (child s n)).of_child (child_div s n)

@[simp] theorem route_one : route 1 = [] := by
  unfold route
  rw [if_pos le_rfl]

theorem route_child {n : Nat} (hn : 1 ≤ n) (s : Side) : route (child s n) = route n ++ [s] := by
  conv_lhs => unfold route
  have hle := le_child s n
  rw [if_neg (by omega), child_div]
  congr 2
  unfold child
  cases s with
  | left => simp
  | right => simp

theorem exists_child (i : Nat) : ∃ s, i = child s (i / 2) := by
  rcases Nat.mod_two_eq_zero_or_one i with h | h
  · exact ⟨.left, by simp only [child]; omega⟩
  · exact ⟨.right, by simp only [child]; omega⟩

theorem index_route {i : Nat} (hi : 1 ≤ i) : index 1 (route i) = i := by
  induction i using Nat.strongRecOn with
  | _ i ih =>
    rcases Nat.lt_or_ge i 2 with h | h
    · obtain rfl : i = 1 := by omega
      rw [route_one]
      rfl
    · obtain ⟨s, hs⟩ := exists_child i
      have hhalf := ih (i / 2) (by omega) (by omega)
      rw [hs, route_child (by omega), index, List.foldl_append]
      rw [index] at hhalf
      rw [hhalf]
      rfl

end Layout

namespace Postfix.Expr

variable {α ω : Type}

/-- The lengths of the paths from the root to the leaves. -/
def depths (e : Expr α ω) : Set Nat := {k | ∃ p a, e.sub p = some (leaf a) ∧ p.length = k}

theorem isGreatest_height (e : Expr α ω) : IsGreatest e.depths e.height := by
  induction e with
  | leaf a =>
    refine ⟨⟨[], a, rfl, rfl⟩, ?_⟩
    rintro k ⟨p, b, hp, rfl⟩
    cases p with
    | nil => exact le_rfl
    | cons s p => cases s <;> cases hp
  | node o l r ihl ihr =>
    obtain ⟨⟨pl, al, hl, hlenl⟩, hmaxl⟩ := ihl
    obtain ⟨⟨pr, ar, hr, hlenr⟩, hmaxr⟩ := ihr
    rw [height_node]
    constructor
    · rcases le_total l.height r.height with hle | hle
      · exact ⟨.right :: pr, ar, hr, by rw [List.length_cons, hlenr, max_eq_right hle]⟩
      · exact ⟨.left :: pl, al, hl, by rw [List.length_cons, hlenl, max_eq_left hle]⟩
    · rintro k ⟨p, a, hp, rfl⟩
      match p with
      | [] => cases hp
      | .left :: q =>
        have hq : q.length ≤ l.height := hmaxl ⟨q, a, hp, rfl⟩
        rw [List.length_cons]
        omega
      | .right :: q =>
        have hq : q.length ≤ r.height := hmaxr ⟨q, a, hp, rfl⟩
        rw [List.length_cons]
        omega

theorem height_sub {e s : Expr α ω} {p : List Side} (h : e.sub p = some s) : s.height ≤ e.height := by
  induction p generalizing e with
  | nil =>
    obtain rfl := Option.some.inj h
    exact le_rfl
  | cons d p ih =>
    cases e with
    | leaf a => cases d <;> cases h
    | node o l r =>
      rw [height_node]
      cases d with
      | left =>
        have := ih (e := l) h
        omega
      | right =>
        have := ih (e := r) h
        omega

end Postfix.Expr
