import DispCalc.Lib.Results
import Mathlib.Data.List.Basic

/-!
# Recognizers with side effects

Rules that read a list of characters and act on a state as they go. A rule that fails gives
back no input but keeps what its actions did to the state: choice and repetition go back in
the input only.
-/

namespace Recognizer

variable {κ σ ε : Type}

/-- What a rule does: an action throws, or there is a state and, after a match, the rest of
the input. -/
abbrev Outcome (κ σ ε : Type) := Except ε (σ × Option (List κ))

abbrev Rule (κ σ ε : Type) := List κ → σ → Outcome κ σ ε

/-- What comes after an outcome that is no error: `no` after a failure, `yes` after a match. -/
def followed (x : Outcome κ σ ε) (no : σ → Outcome κ σ ε) (yes : Rule κ σ ε) : Outcome κ σ ε :=
  match x with
  | .error e => .error e
  | .ok (s, none) => no s
  | .ok (s, some r) => yes r s

@[simp] theorem followed_error (e : ε) (no : σ → Outcome κ σ ε) (yes : Rule κ σ ε) :
    followed (.error e) no yes = .error e := rfl

@[simp] theorem followed_none (s : σ) (no : σ → Outcome κ σ ε) (yes : Rule κ σ ε) :
    followed (.ok (s, none)) no yes = no s := rfl

@[simp] theorem followed_some (s : σ) (r : List κ) (no : σ → Outcome κ σ ε) (yes : Rule κ σ ε) :
    followed (.ok (s, some r)) no yes = yes r s := rfl

theorem outcome_cases (x : Outcome κ σ ε) :
    (∃ e, x = .error e) ∨ (∃ s, x = .ok (s, none)) ∨ ∃ s r, x = .ok (s, some r) := by
  rcases x with e | ⟨s, _ | r⟩
  · exact Or.inl ⟨e, rfl⟩
  · exact Or.inr (Or.inl ⟨s, rfl⟩)
  · exact Or.inr (Or.inr ⟨s, r, rfl⟩)

/-! ## Combinators -/

section Terminals

variable (blank : κ → Bool)

def skip (i : List κ) : List κ := i.dropWhile blank

def ch [DecidableEq κ] (c : κ) : Rule κ σ ε := fun i s =>
  match skip blank i with
  | [] => .ok (s, none)
  | x :: r => if x = c then .ok (s, some r) else .ok (s, none)

/-- As many characters of a class as there are, at least one, after blanks; the action gets
their text. -/
def lexeme (p : κ → Bool) (f : List κ → σ → Except ε σ) : Rule κ σ ε := fun i s =>
  match (skip blank i).takeWhile p with
  | [] => .ok (s, none)
  | text =>
    match f text s with
    | .error e => .error e
    | .ok s => .ok (s, some ((skip blank i).dropWhile p))

end Terminals

def seq (p q : Rule κ σ ε) : Rule κ σ ε := fun i s =>
  followed (p i s) (fun s => .ok (s, none)) q

def alt (p q : Rule κ σ ε) : Rule κ σ ε := fun i s =>
  followed (p i s) (q i) fun r s => .ok (s, some r)

def action (p : Rule κ σ ε) (f : σ → Except ε σ) : Rule κ σ ε := fun i s =>
  followed (p i s) (fun s => .ok (s, none)) fun r s =>
    match f s with
    | .error e => .error e
    | .ok s => .ok (s, some r)

def starFrom (p : Rule κ σ ε) : Nat → Rule κ σ ε
  | 0, i, s => .ok (s, some i)
  | n + 1, i, s => followed (p i s) (fun s => .ok (s, some i)) (starFrom p n)

/-- Greedy repetition. A rule that consumes input matches at most once for each character, so
the bound is never met (`star_eq`). -/
def star (p : Rule κ σ ε) : Rule κ σ ε := fun i s => starFrom p (i.length + 1) i s

section Equations

variable {p q : Rule κ σ ε} {i r : List κ} {s t : σ} {e : ε}

theorem seq_error (h : p i s = .error e) : seq p q i s = .error e := by simp [seq, h]

theorem seq_none (h : p i s = .ok (t, none)) : seq p q i s = .ok (t, none) := by simp [seq, h]

theorem seq_some (h : p i s = .ok (t, some r)) : seq p q i s = q r t := by simp [seq, h]

theorem alt_error (h : p i s = .error e) : alt p q i s = .error e := by simp [alt, h]

theorem alt_none (h : p i s = .ok (t, none)) : alt p q i s = q i t := by simp [alt, h]

theorem alt_some (h : p i s = .ok (t, some r)) : alt p q i s = .ok (t, some r) := by simp [alt, h]

theorem alt_left (h : ∀ t, q i t = .ok (t, none)) (s : σ) : alt p q i s = p i s := by
  rcases outcome_cases (p i s) with ⟨e, hp⟩ | ⟨t, hp⟩ | ⟨t, r, hp⟩
  · rw [alt_error hp, hp]
  · rw [alt_none hp, h, hp]
  · rw [alt_some hp, hp]

theorem action_error (h : p i s = .error e) (f : σ → Except ε σ) : action p f i s = .error e := by
  simp [action, h]

theorem action_none (h : p i s = .ok (t, none)) (f : σ → Except ε σ) :
    action p f i s = .ok (t, none) := by simp [action, h]

theorem action_some (h : p i s = .ok (t, some r)) (f : σ → Except ε σ) :
    action p f i s = (f t).map fun s' => (s', some r) := by
  unfold action
  simp only [h, followed_some]
  rcases f t with e | s' <;> rfl

variable [DecidableEq κ] {blank : κ → Bool} {x : κ}

theorem ch_nil (h : skip blank i = []) (c : κ) (s : σ) :
    (ch blank c : Rule κ σ ε) i s = .ok (s, none) := by
  unfold ch
  rw [h]

theorem ch_cons (h : skip blank i = x :: r) (c : κ) (s : σ) :
    (ch blank c : Rule κ σ ε) i s = if x = c then .ok (s, some r) else .ok (s, none) := by
  unfold ch
  rw [h]

end Equations

/-! ## What an outcome says about the rules -/

section Inversions

variable {p q : Rule κ σ ε} {f : σ → Except ε σ} {i r : List κ} {s s' : σ} {e : ε}
  {x : σ × Option (List κ)}

theorem ch_eq_ok [DecidableEq κ] {blank : κ → Bool} {c : κ}
    (h : (ch blank c : Rule κ σ ε) i s = .ok x) :
    x = (s, none) ∨ ∃ r, skip blank i = c :: r ∧ x = (s, some r) := by
  rcases hskip : skip blank i with _ | ⟨y, r⟩
  · rw [ch_nil hskip] at h
    exact Or.inl (Except.ok.inj h).symm
  · rw [ch_cons hskip] at h
    split at h
    · rename_i hy
      exact Or.inr ⟨r, by rw [hy], (Except.ok.inj h).symm⟩
    · exact Or.inl (Except.ok.inj h).symm

theorem seq_eq_ok (h : seq p q i s = .ok x) : (∃ t, p i s = .ok (t, none) ∧ x = (t, none)) ∨
    ∃ t j, p i s = .ok (t, some j) ∧ q j t = .ok x := by
  rcases outcome_cases (p i s) with ⟨e, hx⟩ | ⟨t, hx⟩ | ⟨t, j, hx⟩
  · rw [seq_error hx] at h
    cases h
  · rw [seq_none hx] at h
    cases h
    exact Or.inl ⟨t, hx, rfl⟩
  · rw [seq_some hx] at h
    exact Or.inr ⟨t, j, hx, h⟩

theorem seq_eq_some (h : seq p q i s = .ok (s', some r)) :
    ∃ t j, p i s = .ok (t, some j) ∧ q j t = .ok (s', some r) := by
  rcases seq_eq_ok h with ⟨t, -, hnone⟩ | hsome
  · cases hnone
  · exact hsome

theorem seq_eq_error (h : seq p q i s = .error e) :
    p i s = .error e ∨ ∃ t j, p i s = .ok (t, some j) ∧ q j t = .error e := by
  rcases outcome_cases (p i s) with ⟨e', hx⟩ | ⟨t, hx⟩ | ⟨t, j, hx⟩
  · rw [seq_error hx] at h
    exact Or.inl (hx.trans h)
  · rw [seq_none hx] at h
    cases h
  · rw [seq_some hx] at h
    exact Or.inr ⟨t, j, hx, h⟩

theorem action_eq_ok (h : action p f i s = .ok x) : (∃ t, p i s = .ok (t, none) ∧ x = (t, none)) ∨
    ∃ t j t', p i s = .ok (t, some j) ∧ f t = .ok t' ∧ x = (t', some j) := by
  rcases outcome_cases (p i s) with ⟨e, hx⟩ | ⟨t, hx⟩ | ⟨t, j, hx⟩
  · rw [action_error hx] at h
    cases h
  · rw [action_none hx] at h
    cases h
    exact Or.inl ⟨t, hx, rfl⟩
  · rw [action_some hx] at h
    obtain ⟨t', ht', rfl⟩ := Except.map_eq_ok.mp h
    exact Or.inr ⟨t, j, t', hx, ht', rfl⟩

theorem action_eq_some (h : action p f i s = .ok (s', some r)) :
    ∃ t, p i s = .ok (t, some r) ∧ f t = .ok s' := by
  rcases action_eq_ok h with ⟨t, -, hnone⟩ | ⟨t, j, t', hx, ht', hsome⟩
  · cases hnone
  · cases hsome
    exact ⟨t, hx, ht'⟩

theorem action_eq_none (h : action p f i s = .ok (s', none)) : p i s = .ok (s', none) := by
  rcases action_eq_ok h with ⟨t, hx, hnone⟩ | ⟨t, j, t', -, -, hsome⟩
  · cases hnone
    exact hx
  · cases hsome

theorem action_eq_error (h : action p f i s = .error e) :
    p i s = .error e ∨ ∃ t j, p i s = .ok (t, some j) ∧ f t = .error e := by
  rcases outcome_cases (p i s) with ⟨e', hx⟩ | ⟨t, hx⟩ | ⟨t, j, hx⟩
  · rw [action_error hx] at h
    exact Or.inl (hx.trans h)
  · rw [action_none hx] at h
    cases h
  · rw [action_some hx] at h
    exact Or.inr ⟨t, j, hx, Except.map_eq_error.mp h⟩

end Inversions

/-! ## Consumption -/

/-- A match leaves less input. -/
def Consumes (p : Rule κ σ ε) : Prop :=
  ∀ i s s' r, p i s = .ok (s', some r) → r.length < i.length

def NotLonger (p : Rule κ σ ε) : Prop :=
  ∀ i s s' r, p i s = .ok (s', some r) → r.length ≤ i.length

theorem Consumes.notLonger {p : Rule κ σ ε} (h : Consumes p) : NotLonger p :=
  fun i s s' r hp => Nat.le_of_lt (h i s s' r hp)

theorem length_skip_le (blank : κ → Bool) (i : List κ) : (skip blank i).length ≤ i.length :=
  (List.dropWhile_sublist _).length_le

theorem length_of_skip {blank : κ → Bool} {i j : List κ} {c : κ} (h : skip blank i = c :: j) :
    j.length < i.length := by
  have hle := length_skip_le blank i
  rw [h] at hle
  exact hle

theorem consumes_ch [DecidableEq κ] (blank : κ → Bool) (c : κ) :
    Consumes (ch blank c : Rule κ σ ε) := by
  intro i s s' r h
  rcases ch_eq_ok h with hnone | ⟨rest, hskip, hsome⟩
  · cases hnone
  · cases hsome
    exact length_of_skip hskip

theorem consumes_lexeme (blank p : κ → Bool) (f : List κ → σ → Except ε σ) :
    Consumes (lexeme blank p f) := by
  intro i s s' r h
  have hle := length_skip_le blank i
  unfold lexeme at h
  rcases htext : (skip blank i).takeWhile p with _ | ⟨x, text⟩
  · simp [htext] at h
  · have hlen := congrArg List.length (List.takeWhile_append_dropWhile (p := p) (l := skip blank i))
    rw [htext, List.length_append, List.length_cons] at hlen
    simp only [htext] at h
    split at h
    · cases h
    · simp only [Except.ok.injEq, Prod.mk.injEq, Option.some.injEq] at h
      rw [← h.2]
      omega

theorem consumes_seq {p q : Rule κ σ ε} (hp : Consumes p) (hq : NotLonger q) :
    Consumes (seq p q) := by
  intro i s s' r h
  obtain ⟨t, j, hx, h⟩ := seq_eq_some h
  exact Nat.lt_of_le_of_lt (hq _ _ _ _ h) (hp _ _ _ _ hx)

theorem consumes_alt {p q : Rule κ σ ε} (hp : Consumes p) (hq : Consumes q) :
    Consumes (alt p q) := by
  intro i s s' r h
  rcases outcome_cases (p i s) with ⟨e, hx⟩ | ⟨t, hx⟩ | ⟨t, r', hx⟩
  · simp [alt_error hx] at h
  · rw [alt_none hx] at h
    exact hq _ _ _ _ h
  · simp only [alt_some hx, Except.ok.injEq, Prod.mk.injEq, Option.some.injEq] at h
    exact h.2 ▸ hp _ _ _ _ hx

theorem consumes_action {p : Rule κ σ ε} (hp : Consumes p) (f : σ → Except ε σ) :
    Consumes (action p f) := by
  intro i s s' r h
  obtain ⟨t, hx, -⟩ := action_eq_some h
  exact hp _ _ _ _ hx

theorem star_matches {p : Rule κ σ ε} (hp : Consumes p) {i : List κ} {s : σ} {x : σ × Option (List κ)}
    (h : star p i s = .ok x) : ∃ s' r, x = (s', some r) ∧ r.length ≤ i.length := by
  have hfrom : ∀ n i s, starFrom p n i s = .ok x →
      ∃ s' r, x = (s', some r) ∧ r.length ≤ i.length := by
    intro n
    induction n with
    | zero =>
      intro i s h
      cases h
      exact ⟨s, i, rfl, Nat.le_refl _⟩
    | succ n ih =>
      intro i s h
      rw [starFrom] at h
      rcases outcome_cases (p i s) with ⟨e, hx⟩ | ⟨t, hx⟩ | ⟨t, r, hx⟩
      · simp [hx] at h
      · rw [hx, followed_none] at h
        cases h
        exact ⟨t, i, rfl, Nat.le_refl _⟩
      · rw [hx, followed_some] at h
        obtain ⟨s', r', rfl, hr'⟩ := ih r t h
        exact ⟨s', r', rfl, Nat.le_trans hr' (Nat.le_of_lt (hp _ _ _ _ hx))⟩
  exact hfrom _ i s h

theorem notLonger_star {p : Rule κ σ ε} (hp : Consumes p) : NotLonger (star p) := by
  intro i s s' r h
  obtain ⟨_, _, hsome, hr⟩ := star_matches hp h
  cases hsome
  exact hr

/-! ## Rules that never throw -/

/-- The rule throws on no input shorter than `n`. -/
def Returns (n : Nat) (p : Rule κ σ ε) : Prop := ∀ i s, i.length < n → ∃ x, p i s = .ok x

theorem Returns.of_le {m n : Nat} {p : Rule κ σ ε} (h : Returns n p) (hle : m ≤ n) : Returns m p :=
  fun i s hi => h i s (Nat.lt_of_lt_of_le hi hle)

theorem returns_ch [DecidableEq κ] (n : Nat) (blank : κ → Bool) (c : κ) :
    Returns n (ch blank c : Rule κ σ ε) := by
  intro i s _
  rcases hskip : skip blank i with _ | ⟨x, r⟩
  · exact ⟨_, ch_nil hskip c s⟩
  · rw [ch_cons hskip]
    split
    · exact ⟨_, rfl⟩
    · exact ⟨_, rfl⟩

theorem returns_lexeme (n : Nat) (blank p : κ → Bool) {f : List κ → σ → Except ε σ}
    (hf : ∀ text s, ∃ s', f text s = .ok s') : Returns n (lexeme blank p f) := by
  intro i s _
  unfold lexeme
  rcases (skip blank i).takeWhile p with _ | ⟨x, text⟩
  · exact ⟨_, rfl⟩
  · obtain ⟨s', hs'⟩ := hf (x :: text) s
    exact ⟨(s', some ((skip blank i).dropWhile p)), by simp only [hs']⟩

theorem returns_followed {n : Nat} {x : Outcome κ σ ε} {no : σ → Outcome κ σ ε} {yes : Rule κ σ ε}
    (hx : ∃ y, x = .ok y) (hno : ∀ s, ∃ y, no s = .ok y) (hyes : Returns n yes)
    (hlen : ∀ s r, x = .ok (s, some r) → r.length < n) : ∃ y, followed x no yes = .ok y := by
  obtain ⟨⟨s, _ | r⟩, rfl⟩ := hx
  · exact hno s
  · exact hyes r s (hlen s r rfl)

theorem returns_seq {n : Nat} {p q : Rule κ σ ε} (hp : Returns n p) (hq : Returns n q)
    (hlen : NotLonger p) : Returns n (seq p q) := fun i s hi =>
  returns_followed (hp i s hi) (fun _ => ⟨_, rfl⟩) hq fun _ _ hx =>
    Nat.lt_of_le_of_lt (hlen _ _ _ _ hx) hi

theorem returns_ch_seq [DecidableEq κ] (blank : κ → Bool) (c : κ) {n : Nat} {q : Rule κ σ ε}
    (hq : Returns n q) : Returns (n + 1) (seq (ch blank c) q) := fun i s hi =>
  returns_followed (returns_ch (n + 1) blank c i s hi) (fun _ => ⟨_, rfl⟩) hq fun t r hx => by
    have := consumes_ch blank c i s t r hx
    omega

theorem returns_alt {n : Nat} {p q : Rule κ σ ε} (hp : Returns n p) (hq : Returns n q) :
    Returns n (alt p q) := by
  intro i s hi
  obtain ⟨⟨t, _ | r⟩, hx⟩ := hp i s hi
  · rw [alt_none hx]
    exact hq i t hi
  · exact ⟨_, alt_some hx⟩

theorem returns_action {n : Nat} {p : Rule κ σ ε} (hp : Returns n p) {f : σ → Except ε σ}
    (hf : ∀ s, ∃ s', f s = .ok s') : Returns n (action p f) := by
  intro i s hi
  obtain ⟨⟨t, _ | r⟩, hx⟩ := hp i s hi
  · exact ⟨_, action_none hx f⟩
  · obtain ⟨t', ht'⟩ := hf t
    exact ⟨_, by rw [action_some hx, ht']; rfl⟩

theorem returns_star {n : Nat} {p : Rule κ σ ε} (hp : Returns n p) (hlen : Consumes p) :
    Returns n (star p) := by
  have hfrom : ∀ k i s, i.length < n → ∃ x, starFrom p k i s = .ok x := by
    intro k
    induction k with
    | zero => exact fun i s _ => ⟨_, rfl⟩
    | succ k ih =>
      intro i s hi
      exact returns_followed (hp i s hi) (fun _ => ⟨_, rfl⟩) ih fun _ _ hx =>
        Nat.lt_trans (hlen _ _ _ _ hx) hi
  exact fun i s hi => hfrom _ i s hi

/-! ## Rules that agree on short inputs -/

/-- The rules do the same on every input shorter than `n`. -/
def AgreeBelow (n : Nat) (p q : Rule κ σ ε) : Prop := ∀ i s, i.length < n → p i s = q i s

theorem AgreeBelow.refl (n : Nat) (p : Rule κ σ ε) : AgreeBelow n p p := fun _ _ _ => rfl

theorem AgreeBelow.of_le {m n : Nat} {p q : Rule κ σ ε} (h : AgreeBelow n p q) (hle : m ≤ n) :
    AgreeBelow m p q := fun i s hi => h i s (Nat.lt_of_lt_of_le hi hle)

theorem agree_followed {n : Nat} {x : Outcome κ σ ε} {no no' : σ → Outcome κ σ ε}
    {yes yes' : Rule κ σ ε} (hno : ∀ s, x = .ok (s, none) → no s = no' s)
    (hyes : AgreeBelow n yes yes') (hlen : ∀ s r, x = .ok (s, some r) → r.length < n) :
    followed x no yes = followed x no' yes' := by
  rcases outcome_cases x with ⟨e, hx⟩ | ⟨t, hx⟩ | ⟨t, r, hx⟩
  · simp [hx]
  · simp [hx, hno t hx]
  · simp [hx, hyes r t (hlen t r hx)]

theorem agree_seq {n : Nat} {p p' q q' : Rule κ σ ε} (hp : AgreeBelow n p p')
    (hq : AgreeBelow n q q') (hlen : NotLonger p) : AgreeBelow n (seq p q) (seq p' q') := by
  intro i s hi
  unfold seq
  rw [← hp i s hi]
  exact agree_followed (fun _ _ => rfl) hq fun t r hx => Nat.lt_of_le_of_lt (hlen _ _ _ _ hx) hi

theorem agree_ch_seq [DecidableEq κ] (blank : κ → Bool) (c : κ) {n : Nat} {q q' : Rule κ σ ε}
    (hq : AgreeBelow n q q') : AgreeBelow (n + 1) (seq (ch blank c) q) (seq (ch blank c) q') := by
  intro i s hi
  refine agree_followed (fun _ _ => rfl) hq fun t r hx => ?_
  have := consumes_ch blank c i s t r hx
  omega

theorem agree_alt {n : Nat} {p p' q q' : Rule κ σ ε} (hp : AgreeBelow n p p')
    (hq : AgreeBelow n q q') : AgreeBelow n (alt p q) (alt p' q') := by
  intro i s hi
  have hi' := hp i s hi
  rcases outcome_cases (p i s) with ⟨e, hx⟩ | ⟨t, hx⟩ | ⟨t, r, hx⟩
  · rw [alt_error hx, alt_error (hi' ▸ hx)]
  · rw [alt_none hx, alt_none (hi' ▸ hx), hq i t hi]
  · rw [alt_some hx, alt_some (hi' ▸ hx)]

theorem agree_action {n : Nat} {p p' : Rule κ σ ε} (hp : AgreeBelow n p p') (f : σ → Except ε σ) :
    AgreeBelow n (action p f) (action p' f) := by
  intro i s hi
  unfold action
  rw [← hp i s hi]

theorem agree_starFrom {n : Nat} {p p' : Rule κ σ ε} (hp : AgreeBelow n p p') (hlen : Consumes p) :
    ∀ {k m : Nat} {i : List κ} (s : σ), i.length < n → i.length < k → i.length < m →
      starFrom p k i s = starFrom p' m i s := by
  intro k
  induction k with
  | zero =>
    intro m i s hi hk
    omega
  | succ k ih =>
    intro m i s hi hk hm
    obtain ⟨m, rfl⟩ : ∃ m', m = m' + 1 := ⟨m - 1, by omega⟩
    rw [starFrom, starFrom, ← hp i s hi]
    rcases outcome_cases (p i s) with ⟨e, hx⟩ | ⟨t, hx⟩ | ⟨t, r, hx⟩
    · simp [hx]
    · simp [hx]
    · have := hlen _ _ _ _ hx
      simp only [hx, followed_some]
      exact ih t (by omega) (by omega) (by omega)

theorem agree_star {n : Nat} {p p' : Rule κ σ ε} (hp : AgreeBelow n p p') (hlen : Consumes p) :
    AgreeBelow n (star p) (star p') := fun _ s hi =>
  agree_starFrom hp hlen s hi (Nat.lt_succ_self _) (Nat.lt_succ_self _)

theorem star_eq {p : Rule κ σ ε} (hlen : Consumes p) (i : List κ) (s : σ) :
    star p i s = followed (p i s) (fun s => .ok (s, some i)) (star p) := by
  unfold star
  conv_lhs => rw [starFrom]
  rcases outcome_cases (p i s) with ⟨e, hx⟩ | ⟨t, hx⟩ | ⟨t, r, hx⟩
  · simp [hx]
  · simp [hx]
  · have := hlen _ _ _ _ hx
    simp only [hx, followed_some]
    exact agree_starFrom (AgreeBelow.refl (i.length + 1) p) hlen t (by omega) (by omega) (by omega)

end Recognizer
