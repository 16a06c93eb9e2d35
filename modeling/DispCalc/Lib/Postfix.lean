import DispCalc.Lib.Results
import Mathlib.Tactic.Ring
import Mathlib.Data.List.Forall2

/-!
# Postfix codes of binary expressions

An expression, its code, and what a stack machine does on that code. Tokens are
of any type: `f` spells an operand and `g` an operator.
-/

namespace Postfix

/-- Operands at the leaves, binary operators at the nodes. -/
inductive Expr (α ω : Type) where
  | leaf (a : α)
  | node (o : ω) (l r : Expr α ω)
  deriving DecidableEq, Repr

variable {α β ω τ ν ε σ ρ : Type}

namespace Expr

/-- The number of edges on the longest path to a leaf. -/
def height : Expr α ω → Nat
  | leaf _ => 0
  | node _ l r => max l.height r.height + 1

def map (h : α → β) : Expr α ω → Expr β ω
  | leaf a => leaf (h a)
  | node o l r => node o (l.map h) (r.map h)

def code (f : α → τ) (g : ω → τ) : Expr α ω → List τ
  | leaf a => [f a]
  | node o l r => l.code f g ++ r.code f g ++ [g o]

/-- Left operand first, then the right one, then the operator. -/
def eval (lit : α → Except ε ν) (app : ω → ν → ν → Except ε ν) : Expr α ω → Except ε ν
  | leaf a => lit a
  | node o l r => do
    let x ← l.eval lit app
    let y ← r.eval lit app
    app o x y

@[simp] theorem height_leaf (a : α) : (leaf a : Expr α ω).height = 0 := rfl

@[simp] theorem height_node (o : ω) (l r : Expr α ω) :
    (node o l r).height = max l.height r.height + 1 := rfl

@[simp] theorem height_map (h : α → β) (e : Expr α ω) : (e.map h).height = e.height := by
  induction e with
  | leaf a => rfl
  | node o l r ihl ihr => simp [map, ihl, ihr]

theorem code_map (h : α → β) (f : β → τ) (g : ω → τ) (e : Expr α ω) :
    (e.map h).code f g = e.code (fun a => f (h a)) g := by
  induction e with
  | leaf a => rfl
  | node o l r ihl ihr => simp [map, code, ihl, ihr]

theorem code_ne_nil (f : α → τ) (g : ω → τ) (e : Expr α ω) : e.code f g ≠ [] := by
  cases e <;> simp [code]

theorem eval_node_ok {lit : α → Except ε ν} {app : ω → ν → ν → Except ε ν} {o : ω}
    {l r : Expr α ω} {v : ν} (h : (node o l r).eval lit app = .ok v) :
    ∃ x y, l.eval lit app = .ok x ∧ r.eval lit app = .ok y ∧ app o x y = .ok v := by
  unfold eval at h
  obtain ⟨x, hl, h⟩ := Except.bind_eq_ok.mp h
  obtain ⟨y, hr, hv⟩ := Except.bind_eq_ok.mp h
  exact ⟨x, y, hl, hr, hv⟩

theorem eval_node_error {lit : α → Except ε ν} {app : ω → ν → ν → Except ε ν} {o : ω}
    {l r : Expr α ω} {e : ε} (h : (node o l r).eval lit app = .error e) :
    l.eval lit app = .error e ∨ ∃ x, l.eval lit app = .ok x ∧
      (r.eval lit app = .error e ∨ ∃ y, r.eval lit app = .ok y ∧ app o x y = .error e) := by
  unfold eval at h
  refine (Except.bind_eq_error.mp h).imp_right ?_
  rintro ⟨x, hl, h⟩
  exact ⟨x, hl, Except.bind_eq_error.mp h⟩

end Expr

def codes (f : α → τ) (g : ω → τ) (ts : List (Expr α ω)) : List τ := ts.flatMap (Expr.code f g)

@[simp] theorem codes_nil (f : α → τ) (g : ω → τ) : codes f g ([] : List (Expr α ω)) = [] := rfl

@[simp] theorem codes_cons (f : α → τ) (g : ω → τ) (t : Expr α ω) (ts : List (Expr α ω)) :
    codes f g (t :: ts) = t.code f g ++ codes f g ts := by simp [codes]

@[simp] theorem codes_append (f : α → τ) (g : ω → τ) (ts us : List (Expr α ω)) :
    codes f g (ts ++ us) = codes f g ts ++ codes f g us := by simp [codes]

theorem codes_join (f : α → τ) (g : ω → τ) (ts : List (Expr α ω)) (x y : Expr α ω) (o : ω) :
    codes f g (ts ++ [x, y]) ++ [g o] = codes f g (ts ++ [.node o x y]) := by
  simp [Expr.code]

/-- Joins the last two of a list. -/
def joinLast (f : α → α → α) : List α → List α
  | [] => []
  | [x] => [x]
  | [x, y] => [f x y]
  | x :: y :: z :: xs => x :: joinLast f (y :: z :: xs)

theorem length_joinLast (f : α → α → α) {xs : List α} (h : 2 ≤ xs.length) :
    (joinLast f xs).length + 1 = xs.length := by
  fun_induction joinLast f xs with
  | case1 => simp at h
  | case2 x => simp at h
  | case3 x y => rfl
  | case4 x y z xs ih => simpa using ih (by simp)

theorem codes_joinLast (f : α → τ) (g : ω → τ) (o : ω) {ts : List (Expr α ω)}
    (h : 2 ≤ ts.length) : codes f g ts ++ [g o] = codes f g (joinLast (.node o) ts) := by
  fun_induction joinLast (Expr.node o) ts with
  | case1 => simp at h
  | case2 x => simp at h
  | case3 x y => exact codes_join f g [] x y o
  | case4 x y z xs ih =>
    have hjoined := ih (by simp)
    rw [codes_cons, List.append_assoc, hjoined, codes_cons]

theorem forall₂_joinLast {R : α → β → Prop} {f : α → α → α} {g : β → β → β}
    (hfg : ∀ x y x' y', R x x' → R y y' → R (f x y) (g x' y')) {xs : List α} {ys : List β}
    (h : List.Forall₂ R xs ys) : List.Forall₂ R (joinLast f xs) (joinLast g ys) := by
  fun_induction joinLast f xs generalizing ys with
  | case1 =>
    cases h
    exact .nil
  | case2 x =>
    obtain _ | ⟨hx, _ | _⟩ := h
    exact .cons hx .nil
  | case3 x y =>
    obtain _ | ⟨hx, _ | ⟨hy, _ | _⟩⟩ := h
    exact .cons (hfg x y _ _ hx hy) .nil
  | case4 x y z xs ih =>
    obtain _ | ⟨hx, hrest⟩ := h
    have hjoined := ih hrest
    obtain _ | ⟨-, _ | ⟨-, -⟩⟩ := hrest
    exact .cons hx hjoined

/-! ## Counting tokens -/

/-- How many values a token list adds to a stack: an operand one, an operator minus one. -/
def weight (p : τ → Bool) : List τ → Int
  | [] => 0
  | t :: ts => (if p t then -1 else 1) + weight p ts

@[simp] theorem weight_nil (p : τ → Bool) : weight p [] = 0 := rfl

@[simp] theorem weight_cons (p : τ → Bool) (t : τ) (ts : List τ) :
    weight p (t :: ts) = (if p t then -1 else 1) + weight p ts := rfl

@[simp] theorem weight_append (p : τ → Bool) (l m : List τ) :
    weight p (l ++ m) = weight p l + weight p m := by
  induction l with
  | nil => simp
  | cons t ts ih => simp [ih]; ring

@[simp] theorem weight_reverse (p : τ → Bool) (l : List τ) : weight p l.reverse = weight p l := by
  induction l with
  | nil => rfl
  | cons t ts ih => simp [ih]; ring

section Weight

variable {p : τ → Bool} {f : α → τ} {g : ω → τ} (hf : ∀ a, p (f a) = false)
  (hg : ∀ o, p (g o) = true)
include hf hg

theorem weight_code (e : Expr α ω) : weight p (e.code f g) = 1 := by
  induction e with
  | leaf a => simp [Expr.code, hf]
  | node o l r ihl ihr => simp [Expr.code, ihl, ihr, hg]

theorem weight_codes (ts : List (Expr α ω)) : weight p (codes f g ts) = ts.length := by
  induction ts with
  | nil => rfl
  | cons t ts ih => simp [weight_code hf hg, ih]; ring

end Weight

/-! ## Running a code -/

/-- A left fold that stops at the first failure and says at which token it was. -/
def foldAt (step : σ → τ → Except ε σ) : Nat → σ → List τ → Except (Nat × ε) σ
  | _, s, [] => .ok s
  | i, s, t :: ts =>
    match step s t with
    | .ok s' => foldAt step (i + 1) s' ts
    | .error e => .error (i, e)

@[simp] theorem foldAt_nil (step : σ → τ → Except ε σ) (i : Nat) (s : σ) :
    foldAt step i s [] = .ok s := rfl

theorem foldAt_cons_ok {step : σ → τ → Except ε σ} {s s' : σ} {t : τ} (h : step s t = .ok s')
    (i : Nat) (ts : List τ) : foldAt step i s (t :: ts) = foldAt step (i + 1) s' ts := by
  simp [foldAt, h]

theorem foldAt_cons_error {step : σ → τ → Except ε σ} {s : σ} {t : τ} {e : ε}
    (h : step s t = .error e) (i : Nat) (ts : List τ) :
    foldAt step i s (t :: ts) = .error (i, e) := by
  simp [foldAt, h]

theorem foldAt_append_ok {step : σ → τ → Except ε σ} {s s' : σ} {ts : List τ} {i : Nat}
    (h : foldAt step i s ts = .ok s') (us : List τ) :
    foldAt step i s (ts ++ us) = foldAt step (i + ts.length) s' us := by
  induction ts generalizing i s with
  | nil =>
    obtain rfl := Except.ok.inj h
    rfl
  | cons t ts ih =>
    cases ht : step s t with
    | error e =>
      rw [foldAt_cons_error ht] at h
      cases h
    | ok s1 =>
      rw [foldAt_cons_ok ht] at h
      rw [List.cons_append, foldAt_cons_ok ht, ih h, List.length_cons]
      congr 1
      omega

theorem mapError_foldAt (step : σ → τ → Except ε σ) (i : Nat) (s : σ) (ts : List τ) :
    (foldAt step i s ts).mapError Prod.snd = ts.foldlM step s := by
  induction ts generalizing i s with
  | nil => rfl
  | cons t ts ih =>
    rw [List.foldlM_cons]
    cases ht : step s t with
    | error e =>
      rw [foldAt_cons_error ht]
      rfl
    | ok s1 =>
      rw [foldAt_cons_ok ht]
      exact ih (i + 1) s1

/-- Both fail with the same error, or both succeed with related results. -/
def Agree (R : σ → ρ → Prop) : Except ε σ → Except ε ρ → Prop
  | .ok s, .ok r => R s r
  | .error e, .error e' => e = e'
  | _, _ => False

theorem foldAt_agree {R : σ → ρ → Prop} {step : σ → τ → Except ε σ} {step' : ρ → τ → Except ε ρ}
    {ts : List τ} (h : ∀ s r, ∀ t ∈ ts, R s r → Agree R (step s t) (step' r t))
    (i : Nat) {s : σ} {r : ρ} (hsr : R s r) :
    Agree R (foldAt step i s ts) (foldAt step' i r ts) := by
  induction ts generalizing i s r with
  | nil => exact hsr
  | cons t ts ih =>
    have ht := h s r t List.mem_cons_self hsr
    cases hs : step s t with
    | error e =>
      cases hr : step' r t with
      | error e' =>
        rw [hs, hr] at ht
        rw [foldAt_cons_error hs, foldAt_cons_error hr]
        exact congrArg (i, ·) ht
      | ok r' => rw [hs, hr] at ht; exact ht.elim
    | ok s' =>
      cases hr : step' r t with
      | error e' => rw [hs, hr] at ht; exact ht.elim
      | ok r' =>
        rw [hs, hr] at ht
        rw [foldAt_cons_ok hs, foldAt_cons_ok hr]
        exact ih (fun s r u hu => h s r u (List.mem_cons_of_mem _ hu)) (i + 1) ht

/-- What a stack machine has to do on the tokens of a code; `stack` is the part of the
state that holds the values. -/
structure StackMachine (f : α → τ) (g : ω → τ) (lit : α → Except ε ν)
    (app : ω → ν → ν → Except ε ν) (stack : σ → List ν) (step : σ → τ → Except ε σ) : Prop where
  operand : ∀ s a v, lit a = .ok v → ∃ s', step s (f a) = .ok s' ∧ stack s' = v :: stack s
  operator : ∀ s o x y v rest, stack s = y :: x :: rest → app o x y = .ok v →
    ∃ s', step s (g o) = .ok s' ∧ stack s' = v :: rest
  operand_error : ∀ s a err, lit a = .error err → step s (f a) = .error err
  operator_error : ∀ s o x y err rest, stack s = y :: x :: rest → app o x y = .error err →
    step s (g o) = .error err

/-- **A code pushes its value**, whatever lies below and whatever comes after. -/
theorem StackMachine.run_code {f : α → τ} {g : ω → τ} {lit : α → Except ε ν}
    {app : ω → ν → ν → Except ε ν} {stack : σ → List ν} {step : σ → τ → Except ε σ}
    (m : StackMachine f g lit app stack step) {e : Expr α ω} {v : ν} (h : e.eval lit app = .ok v)
    (i : Nat) (s : σ) (rest : List τ) :
    ∃ s', stack s' = v :: stack s ∧
      foldAt step i s (e.code f g ++ rest) = foldAt step (i + (e.code f g).length) s' rest := by
  induction e generalizing v i s rest with
  | leaf a =>
    obtain ⟨s', hs, hst⟩ := m.operand s a v h
    exact ⟨s', hst, foldAt_cons_ok hs i rest⟩
  | node o l r ihl ihr =>
    obtain ⟨x, y, hx, hy, hv⟩ := Expr.eval_node_ok h
    obtain ⟨s1, h1, e1⟩ := ihl hx i s (r.code f g ++ [g o] ++ rest)
    obtain ⟨s2, h2, e2⟩ := ihr hy (i + (l.code f g).length) s1 ([g o] ++ rest)
    obtain ⟨s3, h3, hst⟩ := m.operator s2 o x y v (stack s) (by rw [h2, h1]) hv
    refine ⟨s3, hst, ?_⟩
    have hlast := foldAt_cons_ok h3 (i + (l.code f g).length + (r.code f g).length) rest
    simp only [List.append_assoc, List.singleton_append] at e1 e2
    simp only [Expr.code, List.append_assoc, List.singleton_append]
    rw [e1, e2, hlast, List.length_append, List.length_append, List.length_singleton]
    congr 1
    omega

theorem StackMachine.run_code_error {f : α → τ} {g : ω → τ} {lit : α → Except ε ν}
    {app : ω → ν → ν → Except ε ν} {stack : σ → List ν} {step : σ → τ → Except ε σ}
    (m : StackMachine f g lit app stack step) {e : Expr α ω} {err : ε}
    (h : e.eval lit app = .error err) (i : Nat) (s : σ) (rest : List τ) :
    ∃ j, foldAt step i s (e.code f g ++ rest) = .error (j, err) := by
  induction e generalizing i s rest with
  | leaf a => exact ⟨i, foldAt_cons_error (m.operand_error s a err h) i rest⟩
  | node o l r ihl ihr =>
    simp only [Expr.code, List.append_assoc, List.singleton_append]
    rcases Expr.eval_node_error h with hl | ⟨x, hl, hrest⟩
    · exact ihl hl i s _
    obtain ⟨s1, h1, e1⟩ := m.run_code hl i s (r.code f g ++ g o :: rest)
    rw [e1]
    rcases hrest with hr | ⟨y, hr, hv⟩
    · exact ihr hr _ s1 _
    obtain ⟨s2, h2, e2⟩ := m.run_code hr (i + (l.code f g).length) s1 (g o :: rest)
    rw [e2]
    exact ⟨_, foldAt_cons_error (m.operator_error s2 o x y err _ (by rw [h2, h1]) hv) _ _⟩

/-! ## Cutting an expression at a height -/

/-- A piece of a cut expression: a whole subexpression, or one operator above the cut. -/
inductive Piece (α ω : Type) where
  | part (e : Expr α ω)
  | oper (o : ω)

namespace Piece

def code (f : α → τ) (g : ω → τ) : Piece α ω → List τ
  | part e => e.code f g
  | oper o => [g o]

def map (h : α → β) : Piece α ω → Piece β ω
  | part e => part (e.map h)
  | oper o => oper o

def height : Piece α ω → Nat
  | part e => e.height
  | oper _ => 0

end Piece

/-- The maximal subexpressions of height at most `m`, with the operators above them, in the
order of the code. -/
def cut (m : Nat) : Expr α ω → List (Piece α ω)
  | .leaf a => [.part (.leaf a)]
  | .node o l r =>
    if (Expr.node o l r).height ≤ m then [.part (.node o l r)] else cut m l ++ cut m r ++ [.oper o]

theorem cut_of_le {m : Nat} {e : Expr α ω} (h : e.height ≤ m) : cut m e = [.part e] := by
  rcases e with a | ⟨o, l, r⟩
  · rfl
  · exact if_pos h

theorem cut_of_lt {m : Nat} {o : ω} {l r : Expr α ω} (h : m < (Expr.node o l r).height) :
    cut m (.node o l r) = cut m l ++ cut m r ++ [.oper o] := if_neg (by omega)

theorem code_cut (f : α → τ) (g : ω → τ) (m : Nat) (e : Expr α ω) :
    (cut m e).flatMap (Piece.code f g) = e.code f g := by
  induction e with
  | leaf a => rfl
  | node o l r ihl ihr =>
    rcases Nat.lt_or_ge m (Expr.node o l r).height with h | h
    · simp [cut_of_lt h, ihl, ihr, Piece.code, Expr.code]
    · simp [cut_of_le h, Piece.code]

theorem cut_map (h : α → β) (m : Nat) (e : Expr α ω) :
    cut m (e.map h) = (cut m e).map (Piece.map h) := by
  induction e with
  | leaf a => rfl
  | node o l r ihl ihr =>
    have hheight : ((Expr.node o l r).map h).height = (Expr.node o l r).height := Expr.height_map h _
    rcases Nat.lt_or_ge m (Expr.node o l r).height with hm | hm
    · rw [cut_of_lt hm]
      rw [← hheight] at hm
      rw [Expr.map, cut_of_lt hm, ihl, ihr]
      simp [Piece.map]
    · rw [cut_of_le hm, cut_of_le (by rw [hheight]; exact hm)]
      rfl

theorem height_le_of_mem_cut {m : Nat} {e : Expr α ω} {p : Piece α ω} (h : p ∈ cut m e) :
    p.height ≤ e.height := by
  induction e with
  | leaf a =>
    rw [List.mem_singleton.mp h]
    rfl
  | node o l r ihl ihr =>
    rcases Nat.lt_or_ge m (Expr.node o l r).height with hm | hm
    · rw [cut_of_lt hm, List.mem_append, List.mem_append, List.mem_singleton] at h
      rw [Expr.height_node]
      rcases h with (h | h) | rfl
      · have := ihl h
        omega
      · have := ihr h
        omega
      · exact Nat.zero_le _
    · rw [cut_of_le hm, List.mem_singleton] at h
      rw [h]
      rfl

/-! ### Where the pieces come from -/

inductive Side where
  | left
  | right
  deriving DecidableEq, Repr

/-- The subexpression at the end of a path from the root. -/
def Expr.sub : List Side → Expr α ω → Option (Expr α ω)
  | [], e => some e
  | .left :: p, node _ l _ => l.sub p
  | .right :: p, node _ _ r => r.sub p
  | _ :: _, leaf _ => none

/-- The subexpression at `p` has a height of at most `m`, and every larger one around it has not. -/
structure Maximal (m : Nat) (e : Expr α ω) (p : List Side) (e' : Expr α ω) : Prop where
  sub : e.sub p = some e'
  height : e'.height ≤ m
  above : ∀ q, q <+: p → q ≠ p → ∃ a, e.sub q = some a ∧ m < a.height

theorem Maximal.cons {m : Nat} {e a e' : Expr α ω} {s : Side} {p : List Side}
    (hdown : ∀ q, e.sub (s :: q) = a.sub q) (hm : m < e.height) (h : Maximal m a p e') :
    Maximal m e (s :: p) e' where
  sub := (hdown p).trans h.sub
  height := h.height
  above q hq hne := by
    rcases q with _ | ⟨s', q⟩
    · exact ⟨_, rfl, hm⟩
    · obtain ⟨rfl, hq'⟩ := List.cons_prefix_cons.mp hq
      rw [hdown]
      exact h.above q hq' fun heq => hne (by rw [heq])

theorem mem_cut {m : Nat} {e : Expr α ω} {x : Piece α ω} (h : x ∈ cut m e) :
    (∃ p e', x = .part e' ∧ Maximal m e p e') ∨
      ∃ p o l r, x = .oper o ∧ e.sub p = some (.node o l r) ∧ m < (Expr.node o l r).height := by
  have hroot : ∀ e : Expr α ω, e.height ≤ m → Maximal m e [] e := fun e he =>
    ⟨rfl, he, fun q hq hne => absurd (List.prefix_nil.mp hq) hne⟩
  induction e with
  | leaf a =>
    obtain rfl := List.mem_singleton.mp h
    exact Or.inl ⟨[], _, rfl, hroot _ (Nat.zero_le _)⟩
  | node o l r ihl ihr =>
    rcases Nat.lt_or_ge m (Expr.node o l r).height with hm | hm
    · rw [cut_of_lt hm, List.mem_append, List.mem_append, List.mem_singleton] at h
      rcases h with (h | h) | rfl
      · rcases ihl h with ⟨p, e', rfl, he'⟩ | ⟨p, o', a, b, rfl, hp, hlt⟩
        · exact Or.inl ⟨.left :: p, e', rfl, he'.cons (fun _ => rfl) hm⟩
        · exact Or.inr ⟨.left :: p, o', a, b, rfl, hp, hlt⟩
      · rcases ihr h with ⟨p, e', rfl, he'⟩ | ⟨p, o', a, b, rfl, hp, hlt⟩
        · exact Or.inl ⟨.right :: p, e', rfl, he'.cons (fun _ => rfl) hm⟩
        · exact Or.inr ⟨.right :: p, o', a, b, rfl, hp, hlt⟩
      · exact Or.inr ⟨[], o, l, r, rfl, rfl, hm⟩
    · rw [cut_of_le hm, List.mem_singleton] at h
      exact Or.inl ⟨[], _, h, hroot _ hm⟩

/-! ### Pieces and their values -/

/-- The expression with every piece of the cut that has an operator replaced by one operand. -/
def collapse (m : Nat) (h : Expr α ω → α) : Expr α ω → Expr α ω
  | .leaf a => .leaf a
  | .node o l r =>
    if (Expr.node o l r).height ≤ m then .leaf (h (.node o l r))
    else .node o (collapse m h l) (collapse m h r)

/-- The token that stands for a piece in the collapsed expression. -/
def Piece.token (f : α → τ) (g : ω → τ) (h : Expr α ω → α) : Piece α ω → τ
  | part (.leaf a) => f a
  | part e => f (h e)
  | oper o => g o

theorem Piece.code_of_height_zero {f : α → τ} {g : ω → τ} {h : Expr α ω → α} {p : Piece α ω}
    (hp : p.height = 0) : p.code f g = [p.token f g h] := by
  rcases p with (a | ⟨o, l, r⟩) | o
  · rfl
  · simp [Piece.height] at hp
  · rfl

theorem code_collapse (f : α → τ) (g : ω → τ) (h : Expr α ω → α) (m : Nat) (e : Expr α ω) :
    (collapse m h e).code f g = (cut m e).map (Piece.token f g h) := by
  induction e with
  | leaf a => rfl
  | node o l r ihl ihr =>
    rcases Nat.lt_or_ge m (Expr.node o l r).height with hm | hm
    · rw [cut_of_lt hm, collapse, if_neg (by omega)]
      simp [Expr.code, ihl, ihr, Piece.token]
    · rw [cut_of_le hm, collapse, if_pos hm]
      rfl

theorem exists_code_of_cut {R : τ → Piece α ω → Prop} {f : β → τ} {g : ω → τ}
    (hpart : ∀ t e, R t (.part e) → ∃ b, t = f b) (hoper : ∀ t o, R t (.oper o) → t = g o) {m : Nat}
    {e : Expr α ω} {ts : List τ} (h : List.Forall₂ R ts (cut m e)) :
    ∃ e' : Expr β ω, ts = e'.code f g := by
  have hone : ∀ {ts : List τ} {e : Expr α ω}, List.Forall₂ R ts [.part e] →
      ∃ e' : Expr β ω, ts = e'.code f g := by
    intro ts e h
    obtain ⟨t, _, ht, hnil, rfl⟩ := List.forall₂_cons_right_iff.mp h
    obtain rfl := List.forall₂_nil_right_iff.mp hnil
    obtain ⟨b, rfl⟩ := hpart t e ht
    exact ⟨.leaf b, rfl⟩
  induction e generalizing ts with
  | leaf a => exact hone h
  | node o l r ihl ihr =>
    rcases Nat.lt_or_ge m (Expr.node o l r).height with hm | hm
    · rw [cut_of_lt hm] at h
      have hrest := List.forall₂_drop_append ts _ _ h
      obtain ⟨t, _, ht, hnil, hlast⟩ := List.forall₂_cons_right_iff.mp hrest
      obtain rfl := List.forall₂_nil_right_iff.mp hnil
      have hargs := List.forall₂_take_append ts _ _ h
      obtain ⟨x, hx⟩ := ihl (List.forall₂_take_append _ _ _ hargs)
      obtain ⟨y, hy⟩ := ihr (List.forall₂_drop_append _ _ _ hargs)
      refine ⟨.node o x y, ?_⟩
      rw [Expr.code, ← hx, ← hy, List.take_append_drop, ← hoper t o ht, ← hlast,
        List.take_append_drop]
    · rw [cut_of_le hm] at h
      exact hone h

/-- **Replacing pieces by their values does not change the value.** -/
theorem eval_collapse {lit : α → Except ε ν} {app : ω → ν → ν → Except ε ν} {h : Expr α ω → α}
    (hlit : ∀ e v, e.eval lit app = .ok v → lit (h e) = .ok v) (m : Nat) {e : Expr α ω} {v : ν}
    (he : e.eval lit app = .ok v) : (collapse m h e).eval lit app = .ok v := by
  induction e generalizing v with
  | leaf a => exact he
  | node o l r ihl ihr =>
    rcases Nat.lt_or_ge m (Expr.node o l r).height with hm | hm
    · obtain ⟨x, y, hx, hy, hv⟩ := Expr.eval_node_ok he
      rw [collapse, if_neg (by omega)]
      simp only [Expr.eval, ihl hx, ihr hy]
      exact hv
    · rw [collapse, if_pos hm]
      exact hlit _ _ he

theorem eval_of_mem_cut {lit : α → Except ε ν} {app : ω → ν → ν → Except ε ν} {m : Nat}
    {e e' : Expr α ω} {v : ν} (he : e.eval lit app = .ok v) (h : .part e' ∈ cut m e) :
    ∃ v', e'.eval lit app = .ok v' := by
  induction e generalizing v with
  | leaf a =>
    obtain rfl := Piece.part.inj (List.mem_singleton.mp h)
    exact ⟨v, he⟩
  | node o l r ihl ihr =>
    rcases Nat.lt_or_ge m (Expr.node o l r).height with hm | hm
    · obtain ⟨x, y, hx, hy, -⟩ := Expr.eval_node_ok he
      rw [cut_of_lt hm, List.mem_append, List.mem_append, List.mem_singleton] at h
      rcases h with (h | h) | h
      · exact ihl hx h
      · exact ihr hy h
      · cases h
    · rw [cut_of_le hm, List.mem_singleton] at h
      obtain rfl := Piece.part.inj h
      exact ⟨v, he⟩

end Postfix
