import DispCalc.Negation

/-!
# When `parse` throws

`parse` throws on a text just when it comes, at a place where the grammar asks for a factor, to a
minus sign before a factor that `do_neg` cannot negate.
-/

open Postfix Recognizer

namespace DispCalc.Parser

/-- One numeral that fits `int`, with signs and parentheses around it. -/
def Ast.Negatable (a : Ast) : Prop := a.depth = 0 ∧ a.LiteralsFit

/-- The longest factor at the beginning of a text has this parse tree. -/
def Leads (x : List Char) (b : Ast) : Prop :=
  ∃ w r, x = w ++ r ∧ Derives .factor w b ∧
    ∀ w' r' b', x = w' ++ r' → Derives .factor w' b' → r.length ≤ r'.length

/-- A minus sign comes next, and then a factor that it cannot negate. -/
def BadMinus (x : List Char) : Prop :=
  ∃ ws y b, Blank ws ∧ x = ws ++ '-' :: y ∧ Leads y b ∧ ¬ b.Negatable

/-- After this beginning of a text of the symbol the grammar asks for a factor. -/
inductive Awaits : Sym → List Char → Prop where
  | here : Awaits .factor []
  | paren {ws u : List Char} (hws : Blank ws) (h : Awaits (.chain .sum) u) :
      Awaits .factor (ws ++ '(' :: u)
  | sign {ws u : List Char} {c : Char} (hws : Blank ws) (hc : c = '-' ∨ c = '+')
      (h : Awaits .factor u) : Awaits .factor (ws ++ c :: u)
  | first {l : Level} {u : List Char} (h : Awaits l.operand u) : Awaits (.chain l) u
  | later {l : Level} {w u : List Char} {a : Ast} (h : Derives l.operand w a)
      (htail : Awaits (.tail l a) u) : Awaits (.chain l) (w ++ u)
  | operand {l : Level} {ws u : List Char} {a : Ast} {c : Char} {o : Op} (hws : Blank ws)
      (hc : l.op c = some o) (h : Awaits l.operand u) : Awaits (.tail l a) (ws ++ c :: u)
  | next {l : Level} {ws w u : List Char} {a b : Ast} {c : Char} {o : Op} (hws : Blank ws)
      (hc : l.op c = some o) (h : Derives l.operand w b) (htail : Awaits (.tail l (.bin o a b)) u) :
      Awaits (.tail l a) (ws ++ c :: (w ++ u))

/-! ## Negatable factors -/

theorem negate_of_negatable {a : Ast} {e : NumExpr} (ha : a.fold = .ok e) (h : a.Negatable) :
    ∃ e', negate e = .ok e' := by
  obtain ⟨n, hn, -, hrev⟩ := leaf_of_depth_zero h.2 h.1
  obtain rfl := Except.ok.inj (ha.symm.trans hn)
  exact ⟨_, negate_leaf hrev⟩

theorem literalsFit_of_fold {a : Ast} {n : Numeral} (ha : a.fold = .ok (.leaf n))
    (hn : InInt n.value) : a.LiteralsFit := by
  induction a generalizing n with
  | lit d =>
    cases ha
    have hle : (digitsValue d.chars : Int) ≤ 2147483647 := hn.2
    exact Int.ofNat_le.mp hle
  | neg a ih =>
    obtain ⟨e, he, hneg⟩ := neg_fold_ok ha
    obtain ⟨m, v, rfl, hv, -, -⟩ := negate_ok hneg
    obtain ⟨hnum, hi⟩ := lexicalCast_ok hv
    exact ih he (Option.some.inj (m.reads.symm.trans hnum) ▸ hi)
  | pos a ih => exact ih ha hn
  | bin o l r =>
    obtain ⟨x, y, -, -, heq⟩ := bin_fold_ok ha
    cases heq

theorem negatable_of_negate {a : Ast} {e e' : NumExpr} (ha : a.fold = .ok e)
    (h : negate e = .ok e') : a.Negatable := by
  obtain ⟨n, v, rfl, hv, -, -⟩ := negate_ok h
  obtain ⟨hnum, hi⟩ := lexicalCast_ok hv
  exact ⟨(height_of_fold ha).symm,
    literalsFit_of_fold ha (Option.some.inj (n.reads.symm.trans hnum) ▸ hi)⟩

theorem Leads.tokens_unique {x : List Char} {a b : Ast} (ha : Leads x a) (hb : Leads x b)
    {e : NumExpr} (he : a.fold = .ok e) : ∃ e', b.fold = .ok e' ∧ e'.tokens = e.tokens := by
  obtain ⟨w, r, rfl, hw, hmax⟩ := ha
  obtain ⟨w', r', hi, hw', hmax'⟩ := hb
  have hle := hmax w' r' b hi hw'
  have hle' := hmax' w r a rfl hw
  obtain ⟨rfl, rfl⟩ := List.append_inj' hi (by omega)
  exact hw.tokens_unique hw' (by simp) he

/-! ## A bad minus sign throws -/

theorem leads_of_matched {x r : List Char} {st t : List String} (h : factor x st = .ok (t, some r)) :
    ∃ b e, Leads x b ∧ b.fold = .ok e ∧ t = st ++ e.tokens := by
  obtain ⟨w, b, hi, hw, ⟨-, e, he, rfl⟩ | ⟨hfalse, -⟩⟩ := accounts_factor x st _ h
  · refine ⟨b, e, ⟨w, r, hi, hw, fun w' r' b' hi' hw' => ?_⟩, he, rfl⟩
    rw [← Actions.source_factor, hi'] at h
    obtain ⟨_, _, hsome, hle⟩ := Actions.atLeast_of_derives hw' r' st _ h
    cases hsome
    exact hle
  · cases hfalse

theorem factor_badMinus {x : List Char} (h : BadMinus x) (st : List String) :
    ∃ f, factor x st = .error f := by
  obtain ⟨ws, y, b, hws, rfl, hleads, hb⟩ := h
  rw [factor_minus hws]
  rcases outcome_cases (factor y st) with ⟨f, hx⟩ | ⟨t, hx⟩ | ⟨t, r, hx⟩
  · exact ⟨f, action_error hx doNeg⟩
  · obtain ⟨w, r, rfl, hw, -⟩ := hleads
    rw [← Actions.source_factor] at hx
    obtain ⟨_, _, hsome, -⟩ := Actions.atLeast_of_derives hw r st _ hx
    cases hsome
  · obtain ⟨b', e, hleads', he, rfl⟩ := leads_of_matched hx
    obtain ⟨e', he', htokens⟩ := hleads'.tokens_unique hleads he
    rw [action_some hx, ← htokens, doNeg_tokens]
    cases hneg : negate e' with
    | error f => exact ⟨f, rfl⟩
    | ok e'' => exact absurd (negatable_of_negate he' hneg) hb

theorem Awaits.operand_quiet {l : Level} {a : Ast} {u : List Char} (h : Awaits (.tail l a) u)
    (x : List Char) : l.operand.Quiet (u ++ x) := by
  cases h with
  | operand hws hc _ =>
    rw [List.append_assoc, List.cons_append]
    exact Level.quiet_op (skip_op hws hc _) hc
  | next hws hc _ _ =>
    rw [List.append_assoc, List.cons_append]
    exact Level.quiet_op (skip_op hws hc _) hc

theorem Awaits.throws {sym : Sym} {u x : List Char} (h : Awaits sym u) (hx : BadMinus x)
    (st : List String) : ∃ f, sym.rule (u ++ x) st = .error f := by
  induction h generalizing st with
  | here => exact factor_badMinus hx st
  | @paren ws u hws h ih =>
    obtain ⟨f, hf⟩ := ih st
    refine ⟨f, ?_⟩
    rw [Sym.rule, List.append_assoc, List.cons_append, factor_paren hws]
    exact seq_error hf
  | @sign ws u c hws hc h ih =>
    obtain ⟨f, hf⟩ := ih st
    refine ⟨f, ?_⟩
    rw [Sym.rule, List.append_assoc, List.cons_append]
    rcases hc with rfl | rfl
    · rw [factor_minus hws]
      exact action_error hf doNeg
    · rw [factor_plus hws]
      exact hf
  | @first l u h ih =>
    obtain ⟨f, hf⟩ := ih st
    rw [Level.rule_operand] at hf
    exact ⟨f, seq_error hf⟩
  | @later l w u a h htail ih =>
    have hy := exact_operand h.exact (htail.operand_quiet x) st
    rw [Sym.rule, Level.rule, List.append_assoc]
    cases ha : a.fold with
    | error f => exact ⟨f, seq_error (hy.trans (reading_error ha _ _))⟩
    | ok e =>
      rw [seq_some (hy.trans (reading_ok ha _ _))]
      exact ih _
  | @operand l ws u a c o hws hc h ih =>
    obtain ⟨f, hf⟩ := ih st
    rw [Level.rule_operand] at hf
    refine ⟨f, ?_⟩
    rw [Sym.rule, List.append_assoc, List.cons_append,
      l.more_next l.consumes_inner (skip_op hws hc _) hc, hf, followed_error]
  | @next l ws w u a b c o hws hc h htail ih =>
    have hy := exact_operand h.exact (htail.operand_quiet x) st
    rw [Sym.rule, List.append_assoc, List.cons_append, List.append_assoc,
      l.more_next l.consumes_inner (skip_op hws hc _) hc, hy]
    cases hb : b.fold with
    | error f => exact ⟨f, by rw [reading_error hb, followed_error]⟩
    | ok e =>
      rw [reading_ok hb, followed_some]
      exact ih _

/-! ## Nothing else throws -/

/-- On inputs of at most `n` characters the rule throws only at a bad minus sign. -/
def ThrowsAt (n : Nat) (p : Rule) (sym : Sym) : Prop :=
  ∀ i st f, i.length ≤ n → p i st = .error f → ∃ u x, i = u ++ x ∧ Awaits sym u ∧ BadMinus x

theorem sound_inner (l : Level) (n : Nat) : Actions.Sound n l.inner l.operand := by
  have hfactor : Actions.Sound n factor .factor := by
    rw [← Actions.source_factor]
    exact Actions.sound_factor n
  cases l with
  | sum => exact Actions.sound_rule (A := .source) (l := .product) consumes_factor hfactor
  | product => exact hfactor

theorem throwsAt_more {l : Level} {n : Nat} (hp : ThrowsAt n l.inner l.operand) {i : List Char}
    {st : List String} {f : Fault} (hi : i.length ≤ n) (h : l.more l.inner i st = .error f) (a : Ast) :
    ∃ u x, i = u ++ x ∧ Awaits (.tail l a) u ∧ BadMinus x := by
  induction hk : i.length using Nat.strong_induction_on generalizing i st a with
  | _ k ih =>
    subst hk
    by_cases hstop : l.Ends i
    · rw [l.more_stop l.consumes_inner hstop] at h
      cases h
    obtain ⟨c, j, o, hskip, hc⟩ := Level.exists_op hstop
    have hj := length_of_skip hskip
    obtain ⟨ws, hws, hblanks⟩ := exists_blanks hskip
    rw [l.more_next l.consumes_inner hskip hc] at h
    rcases outcome_cases (l.inner j st) with ⟨f', hx⟩ | ⟨t, hx⟩ | ⟨t, j', hx⟩
    · obtain ⟨u, x, rfl, hu, hbad⟩ := hp _ _ _ (by omega) hx
      exact ⟨ws ++ c :: u, x, by simp [hblanks], .operand hws hc hu, hbad⟩
    · rw [hx, followed_none] at h
      cases h
    · rw [hx, followed_some] at h
      have hj' := l.consumes_inner _ _ _ _ hx
      obtain ⟨w, b, rfl, hw⟩ := sound_inner l _ _ _ _ _ le_rfl hx
      obtain ⟨u, x, rfl, hu, hbad⟩ := ih j'.length (by omega) (by omega) h (.bin o a b) rfl
      exact ⟨ws ++ c :: (w ++ u), x, by simp [hblanks], .next hws hc hw hu, hbad⟩

theorem throwsAt_rule {l : Level} {n : Nat} (hp : ThrowsAt n l.inner l.operand) :
    ThrowsAt n (l.rule l.inner) (.chain l) := by
  intro i st f hi h
  rcases seq_eq_error h with hx | ⟨t, j, hx, hmore⟩
  · obtain ⟨u, x, rfl, hu, hbad⟩ := hp _ _ _ hi hx
    exact ⟨u, x, rfl, .first hu, hbad⟩
  · have hj := l.consumes_inner _ _ _ _ hx
    obtain ⟨w, a, rfl, hw⟩ := sound_inner l _ _ _ _ _ le_rfl hx
    obtain ⟨u, x, rfl, hu, hbad⟩ := throwsAt_more hp (by omega) hmore a
    exact ⟨w ++ u, x, by simp, .later hw hu, hbad⟩

theorem throwsAt_expression {n : Nat} (hp : ThrowsAt n factor .factor) :
    ThrowsAt n (expression factor) (.chain .sum) :=
  throwsAt_rule (l := .sum) (throwsAt_rule (l := .product) hp)

theorem throwsAt_factor (n : Nat) : ThrowsAt n factor .factor := by
  induction n using Nat.strong_induction_on with
  | _ n ih =>
    intro i st f hi h
    rcases hskip : skip isSpace i with _ | ⟨c, j⟩
    · rw [factor_nil hskip] at h
      cases h
    obtain ⟨ws, hws, rfl⟩ := exists_blanks hskip
    have hj : j.length < n := by
      simp only [List.length_append, List.length_cons] at hi
      omega
    have hfactor := ih j.length hj
    rw [factor_cons hskip] at h
    split_ifs at h with hd h1 h2 h3
    · rcases seq_eq_error h with hx | ⟨t, k, -, hclose⟩
      · obtain ⟨u, x, rfl, hu, hbad⟩ := throwsAt_expression hfactor _ _ _ le_rfl hx
        exact ⟨ws ++ '(' :: u, x, by simp [h1], .paren hws hu, hbad⟩
      · obtain ⟨y, hy⟩ := returns_ch (ε := Fault) (k.length + 1) isSpace ')' k t (Nat.lt_succ_self _)
        rw [hy] at hclose
        cases hclose
    · rcases action_eq_error h with hx | ⟨t, k, hx, hneg⟩
      · obtain ⟨u, x, rfl, hu, hbad⟩ := hfactor _ _ _ le_rfl hx
        exact ⟨ws ++ '-' :: u, x, by simp [h2], .sign hws (Or.inl rfl) hu, hbad⟩
      · -- The factor is read, and the cast throws.
        obtain ⟨b, e, hleads, he, rfl⟩ := leads_of_matched hx
        refine ⟨[], _, rfl, .here, ws, j, b, hws, by rw [h2]; rfl, hleads, fun hb => ?_⟩
        obtain ⟨e', he'⟩ := negate_of_negatable he hb
        rw [doNeg_tokens, he'] at hneg
        cases hneg
    · obtain ⟨u, x, rfl, hu, hbad⟩ := hfactor _ _ _ le_rfl h
      exact ⟨ws ++ '+' :: u, x, by simp [h3], .sign hws (Or.inr rfl) hu, hbad⟩

/-- A place of the text where the grammar asks for a factor and a bad minus sign stands. -/
def Throws (s : String) : Prop :=
  ∃ u x, cStr s = u ++ x ∧ Awaits (.chain .sum) u ∧ BadMinus x

theorem parse_throws_iff (s : String) (st : List String) :
    (∃ f, parse s st = .error f) ↔ Throws s := by
  constructor
  · rintro ⟨f, hf⟩
    exact throwsAt_expression (throwsAt_factor _) _ _ _ le_rfl hf
  · rintro ⟨u, x, hs, hu, hbad⟩
    unfold parse
    rw [hs]
    exact hu.throws hbad st

theorem parse_returns_iff (s : String) (st : List String) :
    (∃ x, parse s st = .ok x) ↔ ¬ Throws s := by
  rw [← parse_throws_iff s st]
  cases parse s st with
  | error f => simp
  | ok x => simp

end DispCalc.Parser
