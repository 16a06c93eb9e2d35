import DispCalc.Parser.Rules

/-!
# What the rules leave behind

The outcomes of the rules on any input, when no action throws: which part of the input a
match takes, and which expressions the actions have written, those of failed rules included.
-/

open Postfix Recognizer

namespace DispCalc.Parser

abbrev written (ts : List NumExpr) : List String := codes Numeral.text Op.name ts

theorem written_cons (e : NumExpr) (ts : List NumExpr) :
    written (e :: ts) = e.tokens ++ written ts := codes_cons _ _ e ts

theorem written_one (e : NumExpr) : written [e] = e.tokens := by simp [written, NumExpr.tokens]

theorem written_op {ts : List NumExpr} (h : 2 ≤ ts.length) (o : Op) :
    ∃ us, us.length + 1 = ts.length ∧ written ts ++ [o.name] = written us :=
  ⟨joinLast (.node o) ts, length_joinLast _ h, codes_joinLast _ _ o h⟩

/-- After a match with the rest `r` there is the expression of the parse tree on the stack, or,
where a continuation was torn off, more than one expression. -/
def Leaves (torn : List Char → Bool) (st st' : List String) (a : Ast) (r : List Char) : Prop :=
  (torn r = false ∧ ∃ e, a.fold = .ok e ∧ st' = st ++ e.tokens) ∨
    (torn r = true ∧ ∃ ts, 2 ≤ ts.length ∧ st' = st ++ written ts)

/-- The two outcomes without a fault: a failure leaves whole expressions, none only where no
number was read, and a match takes a text of the symbol. -/
def Accounted (sym : Sym) (torn : List Char → Bool) (i : List Char) (st : List String) :
    List String × Option (List Char) → Prop
  | (st', none) => ∃ ts, st' = st ++ written ts ∧ (ts = [] ↔ digity i = false)
  | (st', some r) => ∃ w a, i = w ++ r ∧ Derives sym w a ∧ Leaves torn st st' a r

def Accounts (rule : Rule) (sym : Sym) (torn : List Char → Bool) (i : List Char) : Prop :=
  ∀ st x, rule i st = .ok x → Accounted sym torn i st x

theorem Derives.digity {sym : Sym} {w : List Char} {a : Ast} (h : Derives sym w a) :
    (∀ l b, sym ≠ .tail l b) → ∀ r, Parser.digity (w ++ r) = true := by
  induction h with
  | lit hws d =>
    intro _ r
    rcases d with ⟨_ | ⟨c, cs⟩, hd⟩
    · simp [isDigits] at hd
    · rw [List.append_assoc, digity_blank hws]
      unfold isDigits at hd
      simp only [List.all_cons, Bool.and_eq_true] at hd
      simp [Parser.digity, hd.2.1]
  | paren hws hvs _ ih =>
    intro _ r
    rw [List.append_assoc, digity_blank hws]
    simpa [Parser.digity] using ih (by simp) _
  | neg hws _ ih =>
    intro _ r
    rw [List.append_assoc, digity_blank hws]
    simpa [Parser.digity] using ih (by simp) r
  | pos hws _ ih =>
    intro _ r
    rw [List.append_assoc, digity_blank hws]
    simpa [Parser.digity] using ih (by simp) r
  | @chain l w v a b _ _ ih _ =>
    intro _ r
    rw [List.append_assoc]
    exact ih (by rcases l <;> simp [Level.operand]) _
  | stop => exact fun h => absurd rfl (h _ _)
  | next => exact fun h => absurd rfl (h _ _)

/-! ## Chains -/

theorem Level.Ends.dangling {l : Level} {i : List Char} (h : l.Ends i) : l.dangling i = false := by
  unfold Level.dangling
  split
  next => rfl
  next c r hskip => simp [h c r hskip]

theorem Level.dangling_op {l : Level} {i r : List Char} {c : Char} {o : Op}
    (hskip : skip isSpace i = c :: r) (hc : l.op c = some o) : l.dangling i = digity r := by
  simp [Level.dangling, hskip, hc]

theorem leaves_failed {sym : Sym} {torn torn' : List Char → Bool} {i r : List Char}
    {st t : List String} {a : Ast} {e : NumExpr} (he : a.fold = .ok e) (htorn' : torn' i = digity r)
    (h : Accounted sym torn r (st ++ e.tokens) (t, none)) : Leaves torn' st t a i := by
  obtain ⟨ts, rfl, hts⟩ := h
  by_cases hd : digity r = false
  · exact Or.inl ⟨htorn'.trans hd, e, he, by simp [hts.mpr hd]⟩
  · refine Or.inr ⟨htorn'.trans (by simpa using hd), e :: ts, ?_, by simp [NumExpr.tokens]⟩
    have := List.length_pos_iff.mpr fun h0 => hd (hts.mp h0)
    simp only [List.length_cons]
    omega

theorem leaves_torn {torn : List Char → Bool} {r : List Char} {ts : List NumExpr}
    (hts : 2 ≤ ts.length) (htorn : torn r = true) (st : List String) (e : NumExpr) (o : Op) (a : Ast) :
    Leaves torn st (st ++ e.tokens ++ written ts ++ [o.name]) a r := by
  obtain ⟨us, hus, hwritten⟩ := written_op hts o
  refine Or.inr ⟨htorn, e :: us, by simp only [List.length_cons]; omega, ?_⟩
  rw [written_cons, ← hwritten]
  simp

section Chains

variable {l : Level} {operand : Rule} {torn : List Char → Bool} (hlen : Consumes operand)
  (htorn : ∀ r, torn r = true → l.Ends r)
include hlen htorn

theorem more_leaves {n : Nat} : ∀ {i : List Char} {st st' : List String} {o : Option (List Char)}
    {a : Ast} {e : NumExpr}, i.length < n →
    (∀ j, j.length < n → Accounts operand l.operand torn j) → torn i = false → a.fold = .ok e →
    l.more operand i (st ++ e.tokens) = .ok (st', o) →
    ∃ v r b, o = some r ∧ i = v ++ r ∧ Derives (.tail l a) v b ∧
      Leaves (fun r => torn r || l.dangling r) st st' b r := by
  induction n with
  | zero =>
    intro i st st' o a e hi
    omega
  | succ n ih =>
    intro i st st' o a e hi hacc hi0 he h
    by_cases hstop : l.Ends i
    · rw [l.more_stop hlen hstop] at h
      cases h
      exact ⟨[], i, a, rfl, rfl, .stop, Or.inl ⟨by simp [hi0, hstop.dangling], e, he, rfl⟩⟩
    obtain ⟨c, r, op, hskip, hc⟩ := Level.exists_op hstop
    have hr := length_of_skip hskip
    rw [l.more_next hlen hskip hc] at h
    rcases outcome_cases (operand r (st ++ e.tokens)) with ⟨f, hx⟩ | ⟨t, hx⟩ | ⟨t, r', hx⟩
    · simp [hx] at h
    · rw [hx, followed_none] at h
      cases h
      exact ⟨[], i, a, rfl, rfl, .stop,
        leaves_failed he (by simp [hi0, Level.dangling_op hskip hc]) (hacc r (by omega) _ _ hx)⟩
    · obtain ⟨w, b, rfl, hw, ⟨htorn0, e', he', rfl⟩ | ⟨htorn1, ts, hts, rfl⟩⟩ :=
        hacc r (by omega) _ _ hx
      · -- The chain goes on with one expression.
        rw [hx, followed_some] at h
        have hr' := hlen _ _ _ _ hx
        rw [tokens_join] at h
        obtain ⟨v, r, b', rfl, rfl, hv, hleaves⟩ :=
          ih (by omega) (fun j hj => hacc j (by omega)) htorn0 (fold_bin he he' op) h
        obtain ⟨ws, hws, hi⟩ := exists_blanks hskip
        exact ⟨ws ++ c :: (w ++ v), r, b', rfl, by simp [hi], .next hws hc hw hv, hleaves⟩
      · -- The operand is torn off inside; its rest does not begin with an operator of `l`.
        rw [hx, followed_some, l.more_stop hlen (htorn _ htorn1)] at h
        cases h
        obtain ⟨ws, hws, hi⟩ := exists_blanks hskip
        exact ⟨ws ++ c :: (w ++ []), r', _, rfl, by simp [hi], .next hws hc hw .stop,
          leaves_torn hts (by simp [htorn1]) st e op _⟩

theorem accounts_rule {i : List Char}
    (hacc : ∀ j, j.length ≤ i.length → Accounts operand l.operand torn j) :
    Accounts (l.rule operand) (.chain l) (fun r => torn r || l.dangling r) i := by
  intro st x h
  unfold Level.rule at h
  rcases seq_eq_ok h with ⟨t, hx, rfl⟩ | ⟨t, r, hx, h⟩
  · exact hacc i (Nat.le_refl _) _ _ hx
  · obtain ⟨w, a, rfl, hw, ⟨htorn0, e, he, rfl⟩ | ⟨htorn1, ts, hts, rfl⟩⟩ :=
      hacc i (Nat.le_refl _) _ _ hx
    · obtain ⟨st', o⟩ := x
      obtain ⟨v, r', b, rfl, rfl, hv, hleaves⟩ := more_leaves hlen htorn (Nat.lt_succ_self _)
        (fun j hj => hacc j (by simp; omega)) htorn0 he h
      exact ⟨w ++ v, b, by simp, .chain hw hv, hleaves⟩
    · have hstop := l.more_stop hlen (htorn r htorn1)
      rw [show star (l.step operand) = l.more operand from rfl, hstop] at h
      cases h
      exact ⟨w ++ [], a, by simp, .chain hw .stop, Or.inr ⟨by simp [htorn1], ts, hts, rfl⟩⟩

end Chains

theorem Level.ends_sum_op {i r : List Char} {c : Char} {o : Op} (hskip : skip isSpace i = c :: r)
    (hc : Level.product.op c = some o) : Level.sum.Ends i := by
  intro c' r' hskip'
  obtain ⟨rfl, -⟩ := List.cons.inj (hskip.symm.trans hskip')
  exact Level.op_sum_of_product hc

theorem Level.exists_dangling {l : Level} {i : List Char} (h : l.dangling i = true) :
    ∃ c r o, skip isSpace i = c :: r ∧ l.op c = some o ∧ digity r = true := by
  unfold Level.dangling at h
  split at h
  · cases h
  next c r hskip =>
    obtain ⟨hc, hr⟩ := Bool.and_eq_true_iff.mp h
    obtain ⟨o, ho⟩ := Option.isSome_iff_exists.mp hc
    exact ⟨c, r, o, hskip, ho, hr⟩

theorem Level.ends_sum {r : List Char} (h : Level.product.dangling r = true) : Level.sum.Ends r := by
  obtain ⟨c, r', o, hskip, hc, -⟩ := Level.exists_dangling h
  exact Level.ends_sum_op hskip hc

theorem accounts_expression {i : List Char}
    (h : ∀ j, j.length ≤ i.length → Accounts factor .factor (fun _ => false) j) :
    Accounts (expression factor) (.chain .sum) dangling i := by
  have hterm : ∀ j, j.length ≤ i.length →
      Accounts (term factor) (.chain .product) Level.product.dangling j := fun j hj =>
    accounts_rule (l := .product) consumes_factor (by simp) fun k hk => h k (by omega)
  exact accounts_rule (l := .sum) consumes_term
    (fun _ => Level.ends_sum) hterm

/-! ## Factors -/

theorem accounts_paren {ws r : List Char} (hws : Blank ws)
    (hr : Accounts (expression factor) (.chain .sum) dangling r) {st : List String}
    {x : List String × Option (List Char)}
    (h : seq (expression factor) (ch isSpace ')') r st = .ok x) :
    Accounted .factor (fun _ => false) (ws ++ '(' :: r) st x := by
  have hdigity : digity (ws ++ '(' :: r) = digity r := by simp [digity_blank hws, digity]
  rcases seq_eq_ok h with ⟨t, hx, rfl⟩ | ⟨t, r', hx, hclose⟩
  · obtain ⟨ts, rfl, hts⟩ := hr _ _ hx
    exact ⟨ts, rfl, hdigity ▸ hts⟩
  obtain ⟨w, a, rfl, hw, hleaves⟩ := hr _ _ hx
  have hopen : Accounted .factor (fun _ => false) (ws ++ '(' :: (w ++ r')) st (t, none) := by
    have hd : digity (ws ++ '(' :: (w ++ r')) = true := hdigity.trans (hw.digity (by simp) r')
    rcases hleaves with ⟨-, e, -, rfl⟩ | ⟨-, ts, hts, rfl⟩
    · exact ⟨[e], by rw [written_one], by simp [hd]⟩
    · exact ⟨ts, rfl, ⟨fun h0 => by simp [h0] at hts, fun h0 => by simp [hd] at h0⟩⟩
  rcases ch_eq_ok hclose with rfl | ⟨r'', hskip, rfl⟩
  · exact hopen
  · obtain ⟨vs, hvs, hr'⟩ := exists_blanks hskip
    rcases hleaves with ⟨-, e, he, rfl⟩ | ⟨hd, -⟩
    · exact ⟨ws ++ '(' :: (w ++ (vs ++ [')'])), a, by simp [hr'], .paren hws hvs hw,
        Or.inl ⟨rfl, e, he, rfl⟩⟩
    · simp [dangling, Level.dangling, hskip, Level.op] at hd

theorem accounts_neg {ws r : List Char} (hws : Blank ws)
    (hr : Accounts factor .factor (fun _ => false) r) {st : List String}
    {x : List String × Option (List Char)} (h : action factor doNeg r st = .ok x) :
    Accounted .factor (fun _ => false) (ws ++ '-' :: r) st x := by
  have hdigity : digity (ws ++ '-' :: r) = digity r := by simp [digity_blank hws, digity]
  rcases action_eq_ok h with ⟨t, hx, rfl⟩ | ⟨t, r', t', hx, hdoNeg, rfl⟩
  · obtain ⟨ts, rfl, hts⟩ := hr _ _ hx
    exact ⟨ts, rfl, hdigity ▸ hts⟩
  · obtain ⟨w, a, rfl, hw, ⟨-, e, he, rfl⟩ | ⟨hfalse, -⟩⟩ := hr _ _ hx
    · rw [doNeg_tokens] at hdoNeg
      obtain ⟨e', hneg, rfl⟩ := Except.map_eq_ok.mp hdoNeg
      exact ⟨ws ++ '-' :: w, .neg a, by simp, .neg hws hw,
        Or.inl ⟨rfl, e', (fold_neg he).trans hneg, rfl⟩⟩
    · cases hfalse

theorem accounts_pos {ws r : List Char} (hws : Blank ws)
    (hr : Accounts factor .factor (fun _ => false) r) {st : List String}
    {x : List String × Option (List Char)} (h : factor r st = .ok x) :
    Accounted .factor (fun _ => false) (ws ++ '+' :: r) st x := by
  have hdigity : digity (ws ++ '+' :: r) = digity r := by simp [digity_blank hws, digity]
  rcases x with ⟨st', _ | r'⟩
  · obtain ⟨ts, rfl, hts⟩ := hr _ _ h
    exact ⟨ts, rfl, hdigity ▸ hts⟩
  · obtain ⟨w, a, rfl, hw, hleaves⟩ := hr _ _ h
    exact ⟨ws ++ '+' :: w, .pos a, by simp, .pos hws hw, hleaves⟩

theorem accounts_factor (i : List Char) : Accounts factor .factor (fun _ => false) i := by
  induction hn : i.length using Nat.strong_induction_on generalizing i with
  | _ n ih =>
    subst hn
    intro st x h
    obtain ⟨ws, hws, hi⟩ := exists_skip i
    rcases hskip : skip isSpace i with _ | ⟨c, r⟩
    · -- Only blanks are left.
      rw [factor_nil hskip] at h
      cases h
      rw [hskip] at hi
      exact ⟨[], by simp, by simpa [hi, digity] using digity_blank hws []⟩
    rw [hskip] at hi
    rw [factor_cons hskip] at h
    have hr : r.length < i.length := by simp [hi]; omega
    have hfactor := ih r.length hr r rfl
    have hexpr := accounts_expression fun j hj => ih j.length (Nat.lt_of_le_of_lt hj hr) j rfl
    rw [hi]
    split at h
    next hd =>
      cases h
      let d : Digits := ⟨(c :: r).takeWhile Char.isDigit, isDigits_takeWhile hd r⟩
      exact ⟨ws ++ d.chars, .lit d,
        by rw [List.append_assoc, List.takeWhile_append_dropWhile], .lit hws d,
        Or.inl ⟨rfl, _, rfl, rfl⟩⟩
    next hd =>
      split_ifs at h with h1 h2 h3
      · exact h1 ▸ accounts_paren hws hexpr h
      · exact h2 ▸ accounts_neg hws hfactor h
      · exact h3 ▸ accounts_pos hws hfactor h
      · cases h
        exact ⟨[], by simp, by simp [digity_blank hws, digity, hd, h1, h2, h3, isSpace_of_skip hskip]⟩

/-- Every outcome of `parse`, on any string. -/
theorem parse_accounts (s : String) {st : List String} {x : List String × Option (List Char)}
    (h : parse s st = .ok x) : Accounted (.chain .sum) dangling (cStr s) st x :=
  accounts_expression (fun j _ => accounts_factor j) st x h

theorem parse_written {s : String} {stack : List String} {m : Option (List Char)}
    (h : parse s [] = .ok (stack, m)) : ∃ ts, stack = written ts := by
  cases m with
  | none =>
    obtain ⟨ts, rfl, -⟩ := parse_accounts s h
    exact ⟨ts, rfl⟩
  | some r =>
    obtain ⟨w, a, -, -, ⟨-, e, -, rfl⟩ | ⟨-, ts, -, rfl⟩⟩ := parse_accounts s h
    · exact ⟨[e], (written_one e).symm⟩
    · exact ⟨ts, rfl⟩

end DispCalc.Parser
