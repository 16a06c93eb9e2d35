import Mathlib.Data.List.Infix

/-!
# Splitting texts

At the first place where a pattern occurs, and at every run of separators.
-/

namespace Splitting

variable {α : Type}

/-! ## The first occurrence -/

/-- What stands before and after the first occurrence of the pattern. -/
def splitFirst [DecidableEq α] (pat : List α) : List α → Option (List α × List α)
  | [] => if pat = [] then some ([], []) else none
  | x :: xs =>
    if pat <+: x :: xs then some ([], (x :: xs).drop pat.length)
    else (splitFirst pat xs).map fun s => (x :: s.1, s.2)

theorem splitFirst_eq [DecidableEq α] {pat l before after : List α} (h : splitFirst pat l = some (before, after)) :
    l = before ++ pat ++ after := by
  induction l generalizing before with
  | nil =>
    rw [splitFirst] at h
    split at h
    · rename_i hpat
      obtain ⟨rfl, rfl⟩ := Prod.mk.inj (Option.some.inj h)
      simp [hpat]
    · cases h
  | cons x xs ih =>
    rw [splitFirst] at h
    split at h
    · rename_i hstart
      obtain ⟨rfl, rfl⟩ := Prod.mk.inj (Option.some.inj h)
      obtain ⟨t, ht⟩ := hstart
      rw [← ht, List.drop_left, List.nil_append]
    · rw [Option.map_eq_some_iff] at h
      obtain ⟨⟨b, a⟩, hs, heq⟩ := h
      obtain ⟨rfl, rfl⟩ := Prod.mk.inj heq
      rw [ih hs]
      rfl

theorem splitFirst_eq_none [DecidableEq α] {pat l : List α} :
    splitFirst pat l = none ↔ ¬ pat <:+: l := by
  induction l with
  | nil => simp [splitFirst]
  | cons x xs ih =>
    rw [splitFirst, List.infix_cons_iff]
    by_cases hstart : pat <+: x :: xs
    · simp [hstart]
    · simp [hstart, ih]

/-- The text before the pattern, if the pattern does not end earlier. -/
def Ends (pat before : List α) : Prop := ∀ d, pat <:+: (before ++ pat).take d → (before ++ pat).length ≤ d

theorem Ends.tail {pat before : List α} {x : α} (h : Ends pat (x :: before)) : Ends pat before := by
  intro d hd
  have hlen := h (d + 1) (hd.trans (List.suffix_cons x _).isInfix)
  simpa using hlen

theorem ends_nil (pat : List α) : Ends pat [] := by
  intro d hd
  have hlen := hd.length_le
  rw [List.nil_append, List.length_take] at hlen
  exact hlen.trans (min_le_left _ _)

theorem Ends.cons {pat before : List α} {x : α} (h : Ends pat before)
    (hnot : ¬ pat <+: x :: (before ++ pat)) : Ends pat (x :: before) := by
  intro d hd
  cases d with
  | zero =>
    rw [List.take_zero, List.infix_nil] at hd
    exact absurd (hd ▸ List.nil_prefix) hnot
  | succ d =>
    rw [List.cons_append, List.take_succ_cons, List.infix_cons_iff] at hd
    rcases hd with hstart | hinside
    · refine absurd (hstart.trans ?_) hnot
      exact List.cons_prefix_cons.mpr ⟨rfl, List.take_prefix ..⟩
    · simpa using h d hinside

theorem ends_singleton {c : α} {before : List α} (h : c ∉ before) : Ends [c] before := by
  induction before with
  | nil => exact ends_nil _
  | cons x before ih =>
    refine (ih fun hc => h (List.mem_cons_of_mem _ hc)).cons fun hstart => h ?_
    rw [List.cons_prefix_cons] at hstart
    exact hstart.1 ▸ List.mem_cons_self

theorem splitFirst_append [DecidableEq α] {pat before : List α} (h : Ends pat before) (after : List α) :
    splitFirst pat (before ++ pat ++ after) = some (before, after) := by
  induction before with
  | nil =>
    rw [List.nil_append]
    cases hl : pat ++ after with
    | nil =>
      obtain ⟨rfl, rfl⟩ := List.append_eq_nil_iff.mp hl
      rfl
    | cons x xs => rw [splitFirst, ← hl, if_pos (List.prefix_append ..), List.drop_left]
  | cons x before ih =>
    have hnot : ¬ pat <+: x :: (before ++ pat ++ after) := by
      intro hstart
      have htake : pat <+: (x :: before ++ pat).take pat.length := by
        have heq : x :: (before ++ pat ++ after) = x :: before ++ pat ++ after := rfl
        rw [heq, List.prefix_iff_eq_take, List.take_append_of_le_length (by simp; omega)] at hstart
        rw [← hstart]
      have hlen := h pat.length htake.isInfix
      simp only [List.length_append, List.length_cons] at hlen
      omega
    rw [List.cons_append, List.cons_append, splitFirst, if_neg hnot, ih h.tail]
    rfl

theorem splitFirst_take [DecidableEq α] {pat before after : List α} (h : Ends pat before) {d : Nat}
    (hd : d < (before ++ pat).length) : splitFirst pat ((before ++ pat ++ after).take d) = none := by
  rw [splitFirst_eq_none, List.take_append_of_le_length hd.le]
  intro hinside
  have := h d hinside
  omega

/-! ## Runs of separators -/

/-- `boost::split` with `token_compress_on`: the tokens between the runs of separators. A run at
either end leaves an empty token there. -/
def splitRuns (sep : α → Bool) : List α → List (List α)
  | [] => [[]]
  | x :: xs =>
    if sep x then (if xs.head?.any sep then splitRuns sep xs else [] :: splitRuns sep xs)
    else
      match splitRuns sep xs with
      | token :: tokens => (x :: token) :: tokens
      | [] => [[x]]

theorem splitRuns_head (sep : α → Bool) (l : List α) :
    ∃ ts, splitRuns sep l = l.takeWhile (fun x => !sep x) :: ts := by
  induction l with
  | nil => exact ⟨[], rfl⟩
  | cons x xs ih =>
    obtain ⟨ts, hts⟩ := ih
    rw [splitRuns]
    by_cases hx : sep x = true
    · rw [if_pos hx, List.takeWhile_cons_of_neg (by simp [hx])]
      cases xs with
      | nil => exact ⟨_, rfl⟩
      | cons y ys =>
        by_cases hy : sep y = true
        · rw [List.takeWhile_cons_of_neg (by simp [hy])] at hts
          exact ⟨ts, by simp [hy, hts]⟩
        · exact ⟨splitRuns sep (y :: ys), by simp [hy]⟩
    · rw [if_neg hx, List.takeWhile_cons_of_pos (by simp [hx]), hts]
      exact ⟨ts, rfl⟩

theorem splitRuns_token {sep : α → Bool} {token : List α} (h : ∀ x ∈ token, sep x = false)
    {l t : List α} {ts : List (List α)} (hl : splitRuns sep l = t :: ts) :
    splitRuns sep (token ++ l) = (token ++ t) :: ts := by
  induction token with
  | nil => exact hl
  | cons x token ih =>
    have hx := h x List.mem_cons_self
    rw [List.cons_append, splitRuns, if_neg (by simp [hx]), ih fun y hy => h y (List.mem_cons_of_mem _ hy)]
    rfl

theorem splitRuns_run {sep : α → Bool} {run : List α} (hne : run ≠ []) (h : ∀ x ∈ run, sep x = true)
    {l : List α} (hl : l.head?.any sep = false) : splitRuns sep (run ++ l) = [] :: splitRuns sep l := by
  induction run with
  | nil => exact absurd rfl hne
  | cons x run ih =>
    have hx := h x List.mem_cons_self
    rw [List.cons_append, splitRuns, if_pos hx]
    cases run with
    | nil => rw [List.nil_append, if_neg (by simp [hl])]
    | cons y run =>
      have hy := h y (List.mem_cons_of_mem _ List.mem_cons_self)
      have hany : (y :: run ++ l).head?.any sep = true := hy
      rw [if_pos hany]
      exact ih (by simp) fun z hz => h z (List.mem_cons_of_mem _ hz)

theorem splitRuns_append {sep : α → Bool} {token run : List α} (htoken : ∀ x ∈ token, sep x = false)
    (hne : run ≠ []) (hrun : ∀ x ∈ run, sep x = true) {l : List α} (hl : l.head?.any sep = false) :
    splitRuns sep (token ++ run ++ l) = token :: splitRuns sep l := by
  rw [List.append_assoc, splitRuns_token htoken (splitRuns_run hne hrun hl), List.append_nil]

theorem splitRuns_last {sep : α → Bool} {token : List α} (h : ∀ x ∈ token, sep x = false) :
    splitRuns sep token = [token] := by
  have htoken := splitRuns_token h (show splitRuns sep [] = [[]] from rfl)
  rwa [List.append_nil] at htoken

end Splitting
