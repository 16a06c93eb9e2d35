import DispCalc.Lib.Results
import DispCalc.Parser.Language
import DispCalc.Parser.Partial

/-!
# What the rules read

What the rules make of a text of the grammar when nothing that could prolong it follows. With
`Partial.lean` this says when the stack is the postfix list of what was matched.
-/

open Postfix Recognizer

namespace DispCalc.Parser

/-! ## The rule of a symbol -/

def Level.inner : Level → Rule
  | .sum => term factor
  | .product => factor

def Sym.rule : Sym → Rule
  | .factor => Parser.factor
  | .chain l => l.rule l.inner
  | .tail l _ => l.more l.inner

theorem Level.rule_operand (l : Level) : l.operand.rule = l.inner := by cases l <;> rfl

theorem Level.consumes_inner (l : Level) : Consumes l.inner := by
  cases l
  · exact consumes_term
  · exact consumes_factor

/-! ## Up to the end -/

/-- The outcome for a text with the parse tree `a` and the rest `r`. -/
def reading (a : Ast) (st : List String) (r : List Char) : Outcome Char (List String) Fault :=
  a.fold.map fun e => (st ++ e.tokens, some r)

theorem reading_ok {a : Ast} {e : NumExpr} (h : a.fold = .ok e) (st : List String) (r : List Char) :
    reading a st r = .ok (st ++ e.tokens, some r) := by
  rw [reading, h]
  rfl

theorem reading_error {a : Ast} {f : Fault} (h : a.fold = .error f) (st : List String)
    (r : List Char) : reading a st r = .error f := by
  rw [reading, h]
  rfl

theorem reading_eq_bind (a : Ast) (st : List String) (r : List Char) :
    reading a st r = a.fold >>= fun e => .ok (st ++ e.tokens, some r) := by
  rw [reading]
  cases a.fold <;> rfl

/-- The rule of the symbol reads just the text; behind a tail, its operands are on the stack. -/
def Exact : Sym → List Char → Ast → Prop
  | .tail l a, v, b => ∀ r st e, (Sym.chain l).Quiet r → a.fold = .ok e →
      l.more l.inner (v ++ r) (st ++ e.tokens) = reading b st r
  | sym, w, a => ∀ r st, sym.Quiet r → sym.rule (w ++ r) st = reading a st r

theorem exact_operand {l : Level} {w : List Char} {a : Ast} (h : Exact l.operand w a) {r : List Char}
    (hr : l.operand.Quiet r) (st : List String) : l.inner (w ++ r) st = reading a st r := by
  cases l <;> exact h r st hr

theorem Derives.fold_error {l : Level} {a b : Ast} {v : List Char} (h : Derives (.tail l a) v b)
    {f : Fault} (ha : a.fold = .error f) : b.fold = .error f := by
  generalize hsym : Sym.tail l a = sym at h
  induction h generalizing l a with
  | stop =>
    cases hsym
    exact ha
  | next _ _ _ _ _ ih =>
    cases hsym
    exact ih (fold_bin_left ha _ _) rfl
  | _ => cases hsym

theorem factor_lit {ws : List Char} (hws : Blank ws) (d : Digits) (r : List Char) (st : List String) :
    factor (ws ++ d.chars ++ r) st =
      .ok (st ++ [String.ofList (d.chars ++ r.takeWhile Char.isDigit)],
        some (r.dropWhile Char.isDigit)) := by
  rw [← Actions.source_factor]
  exact Actions.factor_lit hws d r st

theorem factor_paren {ws : List Char} (hws : Blank ws) (i : List Char) (st : List String) :
    factor (ws ++ '(' :: i) st = seq (expression factor) (ch isSpace ')') i st := by
  rw [← Actions.source_factor]
  exact Actions.factor_paren hws i st

theorem factor_minus {ws : List Char} (hws : Blank ws) (i : List Char) (st : List String) :
    factor (ws ++ '-' :: i) st = action factor doNeg i st := by
  rw [← Actions.source_factor]
  exact Actions.factor_minus hws i st

theorem factor_plus {ws : List Char} (hws : Blank ws) (i : List Char) (st : List String) :
    factor (ws ++ '+' :: i) st = factor i st := by
  rw [← Actions.source_factor]
  exact Actions.factor_plus hws i st

theorem paren_exact {vs w : List Char} {a : Ast} (hvs : Blank vs) (h : Exact (.chain .sum) w a)
    (r : List Char) (st : List String) :
    seq (expression factor) (ch isSpace ')') (w ++ (vs ++ ')' :: r)) st = reading a st r := by
  have hx := h _ st (quiet_paren hvs r)
  rcases ha : a.fold with f | e
  · rw [reading_error ha] at hx ⊢
    exact seq_error hx
  · rw [reading_ok ha] at hx ⊢
    refine (seq_some hx).trans ?_
    rw [ch_cons (skip_append hvs rfl r), if_pos rfl]

theorem neg_exact {w r : List Char} {a : Ast} {st : List String}
    (hx : factor (w ++ r) st = reading a st r) :
    action factor doNeg (w ++ r) st = reading (.neg a) st r := by
  rcases ha : a.fold with f | e
  · rw [reading_error ha] at hx
    rw [action_error hx, reading_error (fold_neg_error ha)]
  · rw [reading_ok ha] at hx
    rw [action_some hx, doNeg_tokens, reading, fold_neg ha]
    rcases negate e with f | e' <;> rfl

theorem chain_bind {l : Level} {a b : Ast} {v i r : List Char} {st : List String}
    {k : NumExpr → Outcome Char (List String) Fault} (htail : Derives (.tail l a) v b)
    (hx : l.inner i st = reading a st (v ++ r))
    (hmore : ∀ e, a.fold = .ok e → l.more l.inner (v ++ r) (st ++ e.tokens) = b.fold >>= k) :
    l.rule l.inner i st = b.fold >>= k := by
  -- When the operand's expression throws, so does that of the whole chain.
  unfold Level.rule
  rcases ha : a.fold with f | e
  · rw [reading_error ha] at hx
    rw [seq_error hx, htail.fold_error ha, Except.error_bind]
  · rw [reading_ok ha] at hx
    rw [seq_some hx]
    exact hmore e ha

theorem Level.more_op {l : Level} {ws : List Char} (hws : Blank ws) {c : Char} {o : Op}
    (hc : l.op c = some o) (w v r : List Char) (st : List String) :
    l.more l.inner (ws ++ c :: (w ++ v) ++ r) st = followed (l.inner (w ++ (v ++ r)) st)
      (fun st => .ok (st, some (ws ++ c :: (w ++ v) ++ r)))
      fun r st => l.more l.inner r (st ++ [o.name]) := by
  have hskip : skip isSpace (ws ++ c :: (w ++ v) ++ r) = c :: (w ++ (v ++ r)) := by
    rw [List.append_assoc, List.cons_append, List.append_assoc]
    exact skip_op hws hc _
  exact l.more_next l.consumes_inner hskip hc st

theorem next_bind {l : Level} {a b b' : Ast} {ws w v r : List Char} {c : Char} {o : Op}
    {st : List String} {e : NumExpr} {k : NumExpr → Outcome Char (List String) Fault}
    (hws : Blank ws) (hc : l.op c = some o) (htail : Derives (.tail l (.bin o a b)) v b')
    (ha : a.fold = .ok e)
    (hx : l.inner (w ++ (v ++ r)) (st ++ e.tokens) = reading b (st ++ e.tokens) (v ++ r))
    (hmore : ∀ e', (Ast.bin o a b).fold = .ok e' →
      l.more l.inner (v ++ r) (st ++ e'.tokens) = b'.fold >>= k) :
    l.more l.inner (ws ++ c :: (w ++ v) ++ r) (st ++ e.tokens) = b'.fold >>= k := by
  rw [Level.more_op hws hc]
  rcases hb : b.fold with f | e'
  · rw [reading_error hb] at hx
    rw [hx, followed_error, htail.fold_error (fold_bin_right ha hb o), Except.error_bind]
  · rw [reading_ok hb] at hx
    rw [hx, followed_some, tokens_join]
    exact hmore _ (fold_bin ha hb o)

theorem Derives.exact {sym : Sym} {w : List Char} {a : Ast} (h : Derives sym w a) :
    Exact sym w a := by
  induction h with
  | @lit ws hws d =>
    intro r st hr
    have htake : r.takeWhile Char.isDigit = [] ∧ r.dropWhile Char.isDigit = r := by
      rcases r with _ | ⟨c, r⟩
      · exact ⟨rfl, rfl⟩
      · have hc : c.isDigit = false := hr c (by simp)
        simp [hc]
    rw [Sym.rule, factor_lit hws, htake.1, htake.2, List.append_nil]
    rfl
  | @paren ws vs w a hws hvs h ih =>
    intro r st hr
    rw [Sym.rule, List.append_assoc, List.cons_append, factor_paren hws]
    simpa using paren_exact hvs ih r st
  | @neg ws w a hws h ih =>
    intro r st hr
    rw [Sym.rule, List.append_assoc, List.cons_append, factor_minus hws]
    exact neg_exact (ih r st hr)
  | @pos ws w a hws h ih =>
    intro r st hr
    rw [Sym.rule, List.append_assoc, List.cons_append, factor_plus hws]
    exact ih r st hr
  | @chain l w v a b h htail ih ihtail =>
    intro r st hr
    rw [Sym.rule, List.append_assoc]
    have hx := exact_operand ih (htail.tail_quiet fun _ => hr.operand) st
    rw [reading_eq_bind]
    refine chain_bind htail hx fun e ha => ?_
    rw [← reading_eq_bind]
    exact ihtail r st e hr ha
  | @stop l a =>
    intro r st e hr ha
    rw [List.nil_append, l.more_stop l.consumes_inner hr.2.2, reading_ok ha]
  | @next l a b b' ws w v c o hws hc h htail ih ihtail =>
    intro r st e hr ha
    have hx := exact_operand ih (htail.tail_quiet fun _ => hr.operand) (st ++ e.tokens)
    rw [reading_eq_bind]
    refine next_bind hws hc htail ha hx fun e' hbin => ?_
    rw [← reading_eq_bind]
    exact ihtail r st e' hr hbin

theorem quiet_nil {sym : Sym} : sym.Quiet [] := by
  cases sym <;> simp [Sym.Quiet, NoDigit, Level.Ends, skip]

theorem Derives.tokens_unique {sym : Sym} {w : List Char} {a b : Ast} (ha : Derives sym w a)
    (hb : Derives sym w b) (hsym : ∀ l c, sym ≠ .tail l c) {e : NumExpr} (he : a.fold = .ok e) :
    ∃ e', b.fold = .ok e' ∧ e'.tokens = e.tokens := by
  have heq : reading a [] [] = reading b [] [] := by
    cases sym with
    | factor => exact (ha.exact [] [] quiet_nil).symm.trans (hb.exact [] [] quiet_nil)
    | chain l => exact (ha.exact [] [] quiet_nil).symm.trans (hb.exact [] [] quiet_nil)
    | tail l c => exact absurd rfl (hsym l c)
  rw [reading_ok he] at heq
  cases hfold : b.fold with
  | error f =>
    rw [reading_error hfold] at heq
    cases heq
  | ok e' =>
    rw [reading_ok hfold] at heq
    exact ⟨e', rfl, ((Prod.mk.inj (Except.ok.inj heq)).1).symm⟩

/-! ## Up to an operator -/

theorem Derives.more_read {l : Level} {a b : Ast} {v r : List Char} (h : Derives (.tail l a) v b)
    (hr : l.operand.Quiet r) {e : NumExpr} (ha : a.fold = .ok e) (st : List String) :
    l.more l.inner (v ++ r) (st ++ e.tokens) =
      b.fold >>= fun e => l.more l.inner r (st ++ e.tokens) := by
  generalize hsym : Sym.tail l a = sym at h
  induction h generalizing l a e with
  | stop =>
    cases hsym
    rw [ha, List.nil_append, Except.ok_bind]
  | @next l a b b' ws w v c o hws hc h htail _ ih =>
    cases hsym
    have hx := exact_operand h.exact (htail.tail_quiet fun _ => hr) (st ++ e.tokens)
    exact next_bind hws hc htail ha hx fun e' hbin => ih hr hbin rfl
  | _ => cases hsym

theorem Derives.chain_read {l : Level} {w r : List Char} {a : Ast} (h : Derives (.chain l) w a)
    (hr : l.operand.Quiet r) (st : List String) :
    l.rule l.inner (w ++ r) st = a.fold >>= fun e => l.more l.inner r (st ++ e.tokens) := by
  cases h with
  | @chain _ w v a' b h htail =>
    have hx := exact_operand h.exact (htail.tail_quiet fun _ => hr) st
    rw [List.append_assoc]
    exact chain_bind htail hx fun e ha => htail.more_read hr ha st

/-! ## The stack after `parse` -/

/-- The stack is the postfix list of the part that was matched, empty when there is none. -/
def Traceless (s : String) : List String × Option (List Char) → Prop
  | (stack, none) => stack = []
  | (stack, some r) =>
    ∃ w a e, cStr s = w ++ r ∧ Derives (.chain .sum) w a ∧ a.fold = .ok e ∧ stack = e.tokens

/-- Behind the longest expression there is no operator with a number after it, and without an
expression there is no number. -/
def Clean (s : String) : Prop :=
  (∀ r, LeftOver (cStr s) r → dangling r = false) ∧
    ((∀ w r a, cStr s = w ++ r → ¬ Derives (.chain .sum) w a) → digity (cStr s) = false)

theorem leftOver_of_matched {i : List Char} {stack st : List String} {r : List Char}
    (h : expression factor i st = .ok (stack, some r)) : LeftOver i r := by
  rw [← Actions.source_factor] at h
  exact Actions.leftOver_of_matched (A := .source) h

theorem not_derives_of_failed {i : List Char} {stack st : List String}
    (h : expression factor i st = .ok (stack, none)) {w r : List Char} {a : Ast} (hi : i = w ++ r) :
    ¬ Derives (.chain .sum) w a := by
  rw [← Actions.source_factor] at h
  exact Actions.not_derives_of_failed (A := .source) h hi

theorem weight_tokens (e : NumExpr) : weight isOp e.tokens = 1 :=
  weight_code (fun n => isOp_of_startsNumeral n.starts) (fun o => (isOp_iff _).mpr ⟨o, rfl⟩) e

theorem weight_written (ts : List NumExpr) : weight isOp (written ts) = ts.length :=
  weight_codes (fun n => isOp_of_startsNumeral n.starts) (fun o => (isOp_iff _).mpr ⟨o, rfl⟩) ts

/-- The stack is the postfix list of the part that was matched just when no number is read in an
attempt that fails. -/
theorem stack_traceless_iff {s : String} {x : List String × Option (List Char)}
    (h : parse s [] = .ok x) : Traceless s x ↔ Clean s := by
  rcases x with ⟨stack, _ | r⟩
  · obtain ⟨ts, rfl, hts⟩ := parse_accounts s h
    have hnone : ∀ w r a, cStr s = w ++ r → ¬ Derives (.chain .sum) w a :=
      fun w r a hi => not_derives_of_failed h hi
    constructor
    · intro hstack
      refine ⟨fun r hr => ?_, fun _ => hts.mp ?_⟩
      · obtain ⟨⟨w, a, hi, hw⟩, -⟩ := hr
        exact absurd hw (hnone w r a hi)
      · have hlen := weight_written ts
        rw [show written ts = [] from hstack] at hlen
        exact List.length_eq_zero_iff.mp (by simpa using hlen.symm)
    · intro hclean
      simp [Traceless, hts.mpr (hclean.2 hnone)]
  · have hleft := leftOver_of_matched h
    obtain ⟨w, a, hi, hw, hleaves⟩ := parse_accounts s h
    constructor
    · rintro ⟨w', a', e', hi', hw', he', rfl⟩
      refine ⟨fun r' hr' => ?_, fun hnone => absurd hw (hnone w r a hi)⟩
      rw [hr'.unique hleft]
      rcases hleaves with ⟨hd, -⟩ | ⟨-, ts, hts, hstack⟩
      · exact hd
      · have hlen := weight_written ts
        rw [List.nil_append] at hstack
        rw [← hstack, weight_tokens] at hlen
        omega
    · intro hclean
      rcases hleaves with ⟨-, e, he, rfl⟩ | ⟨hd, -⟩
      · exact ⟨w, a, e, hi, hw, he, rfl⟩
      · simp [hclean.1 r hleft] at hd

theorem stack_traceless_of_unclosed :
    parse "1+(2" [] = .ok (["1", "2"], some ['+', '(', '2']) ∧
      (Traceless "1+(2" (["1", "2"], some ['+', '(', '2']) ↔ Clean "1+(2") :=
  ⟨rfl, stack_traceless_iff rfl⟩

/-- An unclosed parenthesis: the number inside stays on the stack. -/
theorem unclosed_leaves_trace :
    ¬ ∀ s x, parse s [] = .ok x → Traceless s x := by
  intro h
  obtain ⟨w, a, e, -, -, -, hstack⟩ := h "1+(2" (["1", "2"], some ['+', '(', '2']) rfl
  have hweight := weight_tokens e
  rw [← hstack] at hweight
  exact absurd hweight (by decide)

end DispCalc.Parser
