import DispCalc.Parser.AnyActions

/-!
# The language that the rules accept

Whatever the actions do to the state, a rule that matches takes a text of its symbol, and the
longest one at the beginning of the input.
-/

open Recognizer

namespace DispCalc.Parser

variable {σ ε : Type}

namespace Actions

variable (A : Actions σ ε)

def inner : Level → Recognizer.Rule Char σ ε
  | .sum => A.term A.factor
  | .product => A.factor

def symRule : Sym → Recognizer.Rule Char σ ε
  | .factor => A.factor
  | .chain l => A.rule l (A.inner l)
  | .tail l _ => A.more l (A.inner l)

variable {A}

theorem symRule_operand (l : Level) : A.symRule l.operand = A.inner l := by cases l <;> rfl

theorem consumes_inner (l : Level) : Consumes (A.inner l) := by
  cases l
  · exact consumes_rule consumes_factor .product
  · exact consumes_factor

/-! ## What is matched is a text of the symbol -/

/-- On inputs of at most `n` characters the rule takes texts of the symbol. -/
def Sound (n : Nat) (p : Recognizer.Rule Char σ ε) (sym : Sym) : Prop :=
  ∀ i st st' r, i.length ≤ n → p i st = .ok (st', some r) → ∃ w a, i = w ++ r ∧ Derives sym w a

theorem sound_more {l : Level} {p : Recognizer.Rule Char σ ε} (hlen : Consumes p) {n : Nat}
    (hp : Sound n p l.operand) {i r : List Char} {st st' : σ} (hi : i.length ≤ n)
    (h : A.more l p i st = .ok (st', some r)) (a : Ast) :
    ∃ v b, i = v ++ r ∧ Derives (.tail l a) v b := by
  induction hk : i.length using Nat.strong_induction_on generalizing i st a with
  | _ k ih =>
    subst hk
    by_cases hstop : l.Ends i
    · rw [more_stop hlen hstop] at h
      cases h
      exact ⟨[], a, rfl, .stop⟩
    obtain ⟨c, j, o, hskip, hc⟩ := Level.exists_op hstop
    have hj := length_of_skip hskip
    rw [more_next hlen hskip hc] at h
    rcases outcome_cases (action p (A.doOp o) j st) with ⟨e, hx⟩ | ⟨t, hx⟩ | ⟨t, j', hx⟩
    · simp [hx] at h
    · rw [hx, followed_none] at h
      cases h
      exact ⟨[], a, rfl, .stop⟩
    · rw [hx, followed_some] at h
      obtain ⟨t', hx, -⟩ := action_eq_some hx
      have hj' := hlen _ _ _ _ hx
      obtain ⟨w, b, rfl, hw⟩ := hp _ _ _ _ (by omega) hx
      obtain ⟨v, b', rfl, hv⟩ := ih j'.length (by omega) (by omega) h (.bin o a b) rfl
      obtain ⟨ws, hws, hblanks⟩ := exists_blanks hskip
      exact ⟨ws ++ c :: (w ++ v), b', by simp [hblanks], .next hws hc hw hv⟩

theorem sound_rule {l : Level} {p : Recognizer.Rule Char σ ε} (hlen : Consumes p) {n : Nat}
    (hp : Sound n p l.operand) : Sound n (A.rule l p) (.chain l) := by
  intro i st st' r hi h
  obtain ⟨t, j, hx, hmore⟩ := seq_eq_some h
  have hj := hlen _ _ _ _ hx
  obtain ⟨w, a, rfl, hw⟩ := hp _ _ _ _ hi hx
  obtain ⟨v, b, rfl, hv⟩ := sound_more hlen hp (by omega) hmore a
  exact ⟨w ++ v, b, by simp, .chain hw hv⟩

theorem sound_expression {n : Nat} (hp : Sound n A.factor .factor) :
    Sound n (A.expression A.factor) (.chain .sum) :=
  sound_rule (consumes_inner .sum) (sound_rule consumes_factor hp)

theorem ch_eq_some {i r : List Char} {c : Char} {st st' : σ}
    (h : (ch isSpace c : Recognizer.Rule Char σ ε) i st = .ok (st', some r)) :
    ∃ ws, Blank ws ∧ i = ws ++ c :: r := by
  rcases ch_eq_ok h with hnone | ⟨j, hskip, hsome⟩
  · cases hnone
  · cases hsome
    exact exists_blanks hskip

theorem sound_factor (n : Nat) : Sound n A.factor .factor := by
  induction n using Nat.strong_induction_on with
  | _ n ih =>
    intro i st st' r hi h
    rcases hskip : skip isSpace i with _ | ⟨c, j⟩
    · rw [factor_nil hskip] at h
      cases h
    obtain ⟨ws, hws, rfl⟩ := exists_blanks hskip
    rw [factor_cons hskip] at h
    have hj : j.length < n := by
      simp only [List.length_append, List.length_cons] at hi
      omega
    have hfactor := ih j.length hj
    split at h
    · rename_i hd
      rcases hint : A.doInt ((c :: j).takeWhile Char.isDigit) st with e | t
      · simp [hint, Except.map] at h
      · simp only [hint, Except.map, Except.ok.injEq, Prod.mk.injEq, Option.some.injEq] at h
        obtain ⟨-, rfl⟩ := h
        let d : Digits := ⟨(c :: j).takeWhile Char.isDigit, isDigits_takeWhile hd j⟩
        exact ⟨ws ++ d.chars, .lit d,
          by rw [List.append_assoc, List.takeWhile_append_dropWhile], .lit hws d⟩
    split_ifs at h with h1 h2 h3
    · obtain ⟨t, k, hx, hclose⟩ := seq_eq_some h
      obtain ⟨w, a, rfl, hw⟩ := sound_expression hfactor _ _ _ _ le_rfl hx
      obtain ⟨vs, hvs, rfl⟩ := ch_eq_some hclose
      exact ⟨ws ++ '(' :: (w ++ (vs ++ [')'])), a, by simp [h1], .paren hws hvs hw⟩
    · obtain ⟨t, hx, -⟩ := action_eq_some h
      obtain ⟨w, a, rfl, hw⟩ := hfactor _ _ _ _ le_rfl hx
      exact ⟨ws ++ '-' :: w, .neg a, by simp [h2], .neg hws hw⟩
    · obtain ⟨w, a, rfl, hw⟩ := hfactor _ _ _ _ le_rfl h
      exact ⟨ws ++ '+' :: w, .pos a, by simp [h3], .pos hws hw⟩
    · cases h

/-! ## A text is read to its end -/

theorem factor_lit {ws : List Char} (hws : Blank ws) (d : Digits) (r : List Char) (st : σ) :
    A.factor (ws ++ d.chars ++ r) st =
      (A.doInt (d.chars ++ r.takeWhile Char.isDigit) st).map fun st =>
        (st, some (r.dropWhile Char.isDigit)) := by
  obtain ⟨_ | ⟨c, cs⟩, hd⟩ := d
  · simp [isDigits] at hd
  have hall : ∀ x ∈ c :: cs, x.isDigit = true := by simpa [isDigits] using hd
  have hc : c.isDigit = true := hall c (by simp)
  have hskip : skip isSpace (ws ++ c :: cs ++ r) = c :: (cs ++ r) := by
    rw [List.append_assoc]
    exact skip_append hws (isSpace_digit hc) _
  rw [factor_cons hskip, if_pos hc, ← List.cons_append, List.takeWhile_append_of_pos hall,
    List.dropWhile_append_of_pos hall]

theorem factor_paren {ws : List Char} (hws : Blank ws) (i : List Char) (st : σ) :
    A.factor (ws ++ '(' :: i) st = seq (A.expression A.factor) (ch isSpace ')') i st := by
  rw [factor_cons (skip_append hws rfl i), if_neg (by decide), if_pos rfl]

theorem factor_minus {ws : List Char} (hws : Blank ws) (i : List Char) (st : σ) :
    A.factor (ws ++ '-' :: i) st = action A.factor A.doNeg i st := by
  rw [factor_cons (skip_append hws rfl i), if_neg (by decide), if_neg (by decide), if_pos rfl]

theorem factor_plus {ws : List Char} (hws : Blank ws) (i : List Char) (st : σ) :
    A.factor (ws ++ '+' :: i) st = A.factor i st := by
  rw [factor_cons (skip_append hws rfl i), if_neg (by decide), if_neg (by decide),
    if_neg (by decide), if_pos rfl]

theorem more_op {l : Level} {ws : List Char} (hws : Blank ws) {c : Char} {o : Op}
    (hc : l.op c = some o) (w v r : List Char) (st : σ) :
    A.more l (A.inner l) (ws ++ c :: (w ++ v) ++ r) st =
      followed (action (A.inner l) (A.doOp o) (w ++ (v ++ r)) st)
        (fun st => .ok (st, some (ws ++ c :: (w ++ v) ++ r))) (A.more l (A.inner l)) := by
  have hskip : skip isSpace (ws ++ c :: (w ++ v) ++ r) = c :: (w ++ (v ++ r)) := by
    rw [List.append_assoc, List.cons_append, List.append_assoc]
    exact skip_op hws hc _
  exact more_next (consumes_inner l) hskip hc st

/-- Where nothing follows that could prolong the text, a rule that does not throw takes just it. -/
def Stops (A : Actions σ ε) (sym : Sym) (w : List Char) : Prop :=
  ∀ r st x, sym.Quiet r → A.symRule sym (w ++ r) st = .ok x → ∃ st', x = (st', some r)

theorem action_ok {p : Recognizer.Rule Char σ ε} {f : σ → Except ε σ} {i : List Char} {st : σ}
    {x : σ × Option (List Char)} (h : action p f i st = .ok x) :
    ∃ st' m, p i st = .ok (st', m) ∧ x.2 = m := by
  rcases action_eq_ok h with ⟨t, hx, rfl⟩ | ⟨t, j, t', hx, -, rfl⟩
  · exact ⟨t, none, hx, rfl⟩
  · exact ⟨t, some j, hx, rfl⟩

theorem stops_paren {vs w : List Char} (hvs : Blank vs) (h : Stops A (.chain .sum) w) {r : List Char}
    {st : σ} {x : σ × Option (List Char)}
    (hx : seq (A.expression A.factor) (ch isSpace ')') (w ++ (vs ++ ')' :: r)) st = .ok x) :
    ∃ st', x = (st', some r) := by
  rcases hy : A.expression A.factor (w ++ (vs ++ ')' :: r)) st with e | y
  · simp [seq_error hy] at hx
  · obtain ⟨t, rfl⟩ := h _ st y (quiet_paren hvs r) hy
    rw [seq_some hy, ch_cons (skip_append hvs rfl r), if_pos rfl] at hx
    cases hx
    exact ⟨t, rfl⟩

theorem stops_operand {l : Level} {w v : List Char} {a b : Ast} (h : Stops A l.operand w)
    (htail : Derives (.tail l a) v b) {r : List Char} (hr : v = [] → (Sym.chain l).Quiet r) {st : σ}
    {x : σ × Option (List Char)} (hx : A.inner l (w ++ (v ++ r)) st = .ok x) :
    ∃ st', x = (st', some (v ++ r)) := by
  rw [← symRule_operand] at hx
  exact h _ st x (htail.tail_quiet fun hv => (hr hv).operand) hx

theorem stops_of_derives {sym : Sym} {w : List Char} {a : Ast} (h : Derives sym w a) :
    Stops A sym w := by
  induction h with
  | @lit ws hws d =>
    intro r st x hr hx
    have hend : r.dropWhile Char.isDigit = r := by
      rcases r with _ | ⟨c, r⟩
      · rfl
      · have hc : c.isDigit = false := hr c (by simp)
        simp [hc]
    rw [symRule, factor_lit hws, hend] at hx
    obtain ⟨t, -, rfl⟩ := Except.map_eq_ok.mp hx
    exact ⟨t, rfl⟩
  | @paren ws vs w a hws hvs h ih =>
    intro r st x hr hx
    rw [symRule, List.append_assoc, List.cons_append, factor_paren hws] at hx
    exact stops_paren hvs ih (by simpa using hx)
  | @neg ws w a hws h ih =>
    intro r st x hr hx
    rw [symRule, List.append_assoc, List.cons_append, factor_minus hws] at hx
    obtain ⟨t, m, hy, hm⟩ := action_ok hx
    obtain ⟨_, hsome⟩ := ih r st _ hr hy
    exact ⟨x.1, Prod.ext rfl (hm.trans (Prod.mk.inj hsome).2)⟩
  | @pos ws w a hws h ih =>
    intro r st x hr hx
    rw [symRule, List.append_assoc, List.cons_append, factor_plus hws] at hx
    exact ih r st x hr hx
  | @chain l w v a b h htail ih ihtail =>
    intro r st x hr hx
    rw [symRule, List.append_assoc, rule] at hx
    rcases hy : A.inner l (w ++ (v ++ r)) st with e | y
    · simp [seq_error hy] at hx
    · obtain ⟨t, rfl⟩ := stops_operand ih htail (fun _ => hr) hy
      rw [seq_some hy] at hx
      exact ihtail r t x hr hx
  | @stop l a =>
    intro r st x hr hx
    rw [symRule, List.nil_append, more_stop (consumes_inner l) hr.2.2] at hx
    cases hx
    exact ⟨st, rfl⟩
  | @next l a b b' ws w v c o hws hc h htail ih ihtail =>
    intro r st x hr hx
    rw [symRule, more_op hws hc] at hx
    rcases hy : action (A.inner l) (A.doOp o) (w ++ (v ++ r)) st with e | ⟨t, m⟩
    · simp [hy] at hx
    · obtain ⟨_, m', hz, rfl⟩ := action_ok hy
      obtain ⟨_, hsome⟩ := stops_operand ih htail (fun _ => hr) hz
      obtain rfl := (Prod.mk.inj hsome).2
      rw [hy, followed_some] at hx
      exact ihtail r t x hr hx

/-! ## At least up to the end -/

/-- A rule that does not throw matches, and takes at least the text. -/
def AtLeast (A : Actions σ ε) (sym : Sym) (w : List Char) : Prop :=
  ∀ r st x, A.symRule sym (w ++ r) st = .ok x → ∃ st' r', x = (st', some r') ∧ r'.length ≤ r.length

theorem operand_cases {l : Level} {w v : List Char} {a b c : Ast} (h : Derives l.operand w a)
    (hleast : AtLeast A l.operand w) (htail : Derives (.tail l b) v c) {r : List Char} {st : σ}
    {x : σ × Option (List Char)} (hx : A.inner l (w ++ (v ++ r)) st = .ok x) :
    ∃ st' r', x = (st', some r') ∧ (r' = v ++ r ∨ v = [] ∧ r'.length ≤ r.length) := by
  by_cases hv : v = []
  · subst hv
    rw [List.nil_append, ← symRule_operand] at hx
    obtain ⟨st', r', rfl, hr'⟩ := hleast r st x hx
    exact ⟨st', r', rfl, Or.inr ⟨rfl, hr'⟩⟩
  · obtain ⟨st', rfl⟩ := stops_operand (stops_of_derives h) htail (fun h0 => absurd h0 hv) hx
    exact ⟨st', v ++ r, rfl, Or.inl rfl⟩

theorem more_atLeast {l : Level} {v : List Char} {a : Ast} (hleast : AtLeast A (.tail l a) v)
    {r r' : List Char} (hr : r' = v ++ r ∨ v = [] ∧ r'.length ≤ r.length) {st : σ}
    {x : σ × Option (List Char)} (hx : A.more l (A.inner l) r' st = .ok x) :
    ∃ st' r', x = (st', some r') ∧ r'.length ≤ r.length := by
  rcases hr with rfl | ⟨-, hr⟩
  · exact hleast r st x hx
  · obtain ⟨st', r'', rfl, hr''⟩ := star_matches (consumes_step (consumes_inner l) l) hx
    exact ⟨st', r'', rfl, Nat.le_trans hr'' hr⟩

theorem atLeast_of_derives {sym : Sym} {w : List Char} {a : Ast} (h : Derives sym w a) :
    AtLeast A sym w := by
  induction h with
  | @lit ws hws d =>
    intro r st x hx
    rw [symRule, factor_lit hws] at hx
    obtain ⟨t, -, rfl⟩ := Except.map_eq_ok.mp hx
    exact ⟨t, _, rfl, (List.dropWhile_sublist _).length_le⟩
  | @paren ws vs w a hws hvs h ih =>
    intro r st x hx
    rw [symRule, List.append_assoc, List.cons_append, factor_paren hws] at hx
    obtain ⟨t, rfl⟩ := stops_paren hvs (stops_of_derives h) (by simpa using hx)
    exact ⟨t, r, rfl, Nat.le_refl _⟩
  | @neg ws w a hws h ih =>
    intro r st x hx
    rw [symRule, List.append_assoc, List.cons_append, factor_minus hws] at hx
    obtain ⟨t, m, hy, hm⟩ := action_ok hx
    obtain ⟨_, r', hsome, hr'⟩ := ih r st _ hy
    exact ⟨x.1, r', Prod.ext rfl (hm.trans (Prod.mk.inj hsome).2), hr'⟩
  | @pos ws w a hws h ih =>
    intro r st x hx
    rw [symRule, List.append_assoc, List.cons_append, factor_plus hws] at hx
    exact ih r st x hx
  | @chain l w v a b h htail ih ihtail =>
    intro r st x hx
    rw [symRule, List.append_assoc, rule] at hx
    rcases hy : A.inner l (w ++ (v ++ r)) st with e | y
    · simp [seq_error hy] at hx
    · obtain ⟨st', r', rfl, hr'⟩ := operand_cases h ih htail hy
      rw [seq_some hy] at hx
      exact more_atLeast ihtail hr' hx
  | @stop l a =>
    intro r st x hx
    exact star_matches (consumes_step (consumes_inner l) l) hx
  | @next l a b b' ws w v c o hws hc h htail ih ihtail =>
    intro r st x hx
    rw [symRule, more_op hws hc] at hx
    rcases hy : action (A.inner l) (A.doOp o) (w ++ (v ++ r)) st with e | ⟨t, m⟩
    · simp [hy] at hx
    · obtain ⟨_, m', hz, rfl⟩ := action_ok hy
      obtain ⟨_, r', hsome, hr'⟩ := operand_cases h ih htail hz
      obtain rfl := (Prod.mk.inj hsome).2
      rw [hy, followed_some] at hx
      exact more_atLeast ihtail hr' hx

/-! ## What `parse` matches -/

theorem leftOver_of_matched {i : List Char} {st st' : σ} {r : List Char}
    (h : A.expression A.factor i st = .ok (st', some r)) : LeftOver i r := by
  refine ⟨sound_expression (sound_factor _) _ _ _ _ le_rfl h, fun w r' a hi hw => ?_⟩
  rw [hi] at h
  obtain ⟨_, _, hsome, hr⟩ := atLeast_of_derives hw r' st _ h
  cases hsome
  exact hr

theorem not_derives_of_failed {i : List Char} {st st' : σ}
    (h : A.expression A.factor i st = .ok (st', none)) {w r : List Char} {a : Ast}
    (hi : i = w ++ r) : ¬ Derives (.chain .sum) w a := by
  intro hw
  rw [hi] at h
  obtain ⟨_, _, hsome, -⟩ := atLeast_of_derives hw r st _ h
  cases hsome

/-- `parse_info::full`: there is a match, and the skipper takes what is left behind it. -/
def full (m : Option (List Char)) : Bool := m.any fun r => r.all isSpace

theorem full_iff {s : String} {st st' : σ} {m : Option (List Char)} (h : A.parse s st = .ok (st', m)) :
    full m = true ↔ ∃ a, Sentence s a := by
  constructor
  · intro hfull
    cases m with
    | none => cases hfull
    | some r =>
      obtain ⟨w, a, hi, hw⟩ := (leftOver_of_matched h).1
      exact ⟨a, w, r, hi, hw, List.all_eq_true.mp hfull⟩
  · rintro ⟨a, w, ws, hi, hw, hws⟩
    cases m with
    | none => exact absurd hw (not_derives_of_failed h hi)
    | some r =>
      obtain ⟨⟨w', a', hi', -⟩, hmin⟩ := leftOver_of_matched h
      have hsuffix : r <:+ ws := List.suffix_of_suffix_length_le ⟨w', hi'.symm⟩ ⟨w, hi.symm⟩
        (hmin w ws a hi hw)
      exact List.all_eq_true.mpr fun c hc => hws c (hsuffix.subset hc)

theorem matched_iff {s : String} {st st' : σ} {m : Option (List Char)}
    (h : A.parse s st = .ok (st', m)) (r : List Char) : m = some r ↔ LeftOver (cStr s) r := by
  constructor
  · rintro rfl
    exact leftOver_of_matched h
  · intro hr
    obtain ⟨w, a, hi, hw⟩ := hr.1
    cases m with
    | none => exact absurd hw (not_derives_of_failed h hi)
    | some r' => rw [(leftOver_of_matched h).unique hr]

theorem failed_iff {s : String} {st st' : σ} {m : Option (List Char)}
    (h : A.parse s st = .ok (st', m)) :
    m = none ↔ ∀ w r a, cStr s = w ++ r → ¬ Derives (.chain .sum) w a := by
  constructor
  · rintro rfl w r a hi
    exact not_derives_of_failed h hi
  · intro hnone
    cases m with
    | none => rfl
    | some r =>
      obtain ⟨w, a, hi, hw⟩ := (leftOver_of_matched h).1
      exact absurd hw (hnone w r a hi)

/-! ## Actions that never throw -/

structure NeverThrows (A : Actions σ ε) : Prop where
  doInt : ∀ text st, ∃ st', A.doInt text st = .ok st'
  doOp : ∀ o st, ∃ st', A.doOp o st = .ok st'
  doNeg : ∀ st, ∃ st', A.doNeg st = .ok st'

theorem NeverThrows.rule (hA : A.NeverThrows) {n : Nat} {p : Recognizer.Rule Char σ ε}
    (hp : Returns n p) (hlen : Consumes p) (l : Level) : Returns n (A.rule l p) := by
  have hstep : ∀ c o, Returns n (action (seq (ch isSpace c) p) (A.doOp o)) := fun c o =>
    returns_action ((returns_ch_seq isSpace c hp).of_le (Nat.le_succ n)) (hA.doOp o)
  have halt : Returns n (A.step l p) := by
    cases l
    · exact returns_alt (hstep _ _) (hstep _ _)
    · exact returns_alt (hstep _ _) (hstep _ _)
  exact returns_seq hp (returns_star halt (consumes_step hlen l)) hlen.notLonger

theorem NeverThrows.factorWithin (hA : A.NeverThrows) (n : Nat) : Returns n (A.factorWithin n) := by
  induction n with
  | zero =>
    intro i s hi
    cases hi
  | succ n ih =>
    have hlen := consumes_factorWithin (A := A) n
    have hexpression : Returns n (A.expression (A.factorWithin n)) :=
      hA.rule (hA.rule ih hlen .product) (consumes_rule hlen .product) .sum
    refine returns_alt (returns_lexeme _ isSpace _ hA.doInt) (returns_alt ?_ (returns_alt ?_ ?_))
    · exact returns_ch_seq isSpace '(' (returns_seq hexpression (returns_ch n isSpace ')')
        (consumes_rule (consumes_rule hlen .product) .sum).notLonger)
    · exact returns_action (returns_ch_seq isSpace '-' ih) hA.doNeg
    · exact returns_ch_seq isSpace '+' ih

theorem NeverThrows.parse (hA : A.NeverThrows) (s : String) (st : σ) : ∃ x, A.parse s st = .ok x := by
  have hfactor : Returns ((cStr s).length + 1) A.factor := fun i st _ =>
    hA.factorWithin (i.length + 1) i st (Nat.lt_succ_self _)
  exact hA.rule (hA.rule hfactor consumes_factor .product) (consumes_rule consumes_factor .product)
    .sum (cStr s) st (Nat.lt_succ_self _)

/-- **The rules accept the language of the grammar.** With actions that never throw `parse` returns.
Whenever it returns, whatever its actions are, it has matched the longest expression that begins the
text, if there is one, and the match is full just when the text is a sentence. -/
theorem parse_language (A : Actions σ ε) (s : String) (st : σ) :
    (A.NeverThrows → ∃ st' m, A.parse s st = .ok (st', m)) ∧
      ∀ st' m, A.parse s st = .ok (st', m) → (full m = true ↔ ∃ a, Sentence s a) ∧
        (∀ r, m = some r ↔ LeftOver (cStr s) r) ∧
        (m = none ↔ ∀ w r a, cStr s = w ++ r → ¬ Derives (.chain .sum) w a) := by
  refine ⟨fun hA => ?_, fun st' m h => ⟨full_iff h, matched_iff h, failed_iff h⟩⟩
  obtain ⟨⟨st', m⟩, h⟩ := hA.parse s st
  exact ⟨st', m, h⟩

/-- The actions of the source, but a minus sign is written as a token of its own. -/
def withNeg : Actions (List String) Fault := { source with doNeg := fun st => .ok (st ++ ["NEG"]) }

theorem parse_language_of_negation :
    ∃ st' m, withNeg.parse "-(1+2)" [] = .ok (st', m) ∧ (full m = true ↔ ∃ a, Sentence "-(1+2)" a) ∧
      (∀ r, m = some r ↔ LeftOver (cStr "-(1+2)") r) ∧
      (m = none ↔ ∀ w r a, cStr "-(1+2)" = w ++ r → ¬ Derives (.chain .sum) w a) := by
  obtain ⟨hreturns, hlanguage⟩ := parse_language withNeg "-(1+2)" []
  obtain ⟨st', m, h⟩ := hreturns ⟨fun _ _ => ⟨_, rfl⟩, fun _ _ => ⟨_, rfl⟩, fun _ => ⟨_, rfl⟩⟩
  exact ⟨st', m, h, hlanguage st' m h⟩

end Actions

end DispCalc.Parser
