import DispCalc.Parser.Exact

/-!
# What a text leaves behind

`parse` writes the longest expression at the beginning of the text, and what failed attempts have
read behind it: the numbers behind a parenthesis that is never closed stay on the stack. This says
for every text which expressions these are.
-/

open Postfix Recognizer

namespace DispCalc.Parser

def Begins (sym : Sym) (i : List Char) : Prop := ∃ w r a, i = w ++ r ∧ Derives sym w a

/-- Behind blanks and signs, the text after an opening parenthesis. -/
def opened : List Char → Option (List Char)
  | [] => none
  | c :: r => if c = '(' then some r else if isSpace c || c == '-' || c == '+' then opened r else none

/-- A factor is asked for, and the parenthesis that comes is not closed where it should be. -/
def Unclosed (x j : List Char) : Prop := opened x = some j ∧ ¬ Begins .factor x

/-- The expressions that a text leaves on the stack. -/
inductive Residue : List Char → List Ast → Prop where
  | nothing {i : List Char} (h : digity i = false) : Residue i []
  | whole {w r : List Char} {a : Ast} (hw : Derives (.chain .sum) w a) (hr : LeftOver (w ++ r) r)
      (hclean : dangling r = false) : Residue (w ++ r) [a]
  | unclosed {i j : List Char} {as : List Ast} (h : Unclosed i j) (hj : Residue j as) : Residue i as
  /-- An operator follows that has no second operand. -/
  | torn {l : Level} {w ws x j : List Char} {a : Ast} {as : List Ast} {c : Char} {o : Op}
      (hw : Derives (.chain l) w a) (hws : Blank ws) (hc : l.op c = some o) (h : Unclosed x j)
      (hj : Residue j as) : Residue (w ++ (ws ++ c :: x)) (a :: as)
  /-- A product is torn in a sum: the operator of the sum takes what is on top of the stack. -/
  | joined {w ws v ws' x j : List Char} {a b : Ast} {as : List Ast} {c c' : Char} {o o' : Op}
      (hw : Derives (.chain .sum) w a) (hws : Blank ws) (hc : Level.sum.op c = some o)
      (hv : Derives (.chain .product) v b) (hws' : Blank ws') (hc' : Level.product.op c' = some o')
      (h : Unclosed x j) (hj : Residue j as) :
      Residue (w ++ (ws ++ c :: (v ++ (ws' ++ c' :: x)))) (joinLast (.bin o) (a :: b :: as))

/-! ## Beginnings -/

theorem Derives.blank {ws w : List Char} (hws : Blank ws) {a : Ast} (h : Derives .factor w a) :
    Derives .factor (ws ++ w) a := by
  have hblank : ∀ {vs : List Char}, Blank vs → Blank (ws ++ vs) := fun hvs =>
    List.forall_mem_append.mpr ⟨hws, hvs⟩
  cases h with
  | lit hvs d =>
    rw [← List.append_assoc]
    exact .lit (hblank hvs) d
  | paren hvs hvs' h =>
    rw [← List.append_assoc]
    exact .paren (hblank hvs) hvs' h
  | neg hvs h =>
    rw [← List.append_assoc]
    exact .neg (hblank hvs) h
  | pos hvs h =>
    rw [← List.append_assoc]
    exact .pos (hblank hvs) h

theorem begins_operand {l : Level} {i : List Char} : Begins (.chain l) i ↔ Begins l.operand i := by
  constructor
  · rintro ⟨w, r, a, rfl, hw⟩
    cases hw with
    | chain hw htail => exact ⟨_, _, _, List.append_assoc _ _ _, hw⟩
  · rintro ⟨w, r, a, rfl, hw⟩
    exact ⟨w ++ [], r, a, by simp, .chain hw .stop⟩

theorem begins_factor (l : Level) {i : List Char} : Begins l.operand i ↔ Begins .factor i := by
  cases l with
  | sum => exact begins_operand (l := .product)
  | product => exact Iff.rfl

theorem begins_expression {i : List Char} : Begins (.chain .sum) i ↔ Begins .factor i :=
  begins_operand.trans (begins_factor .sum)

theorem begins_or_opened {x : List Char} (h : digity x = true) :
    Begins .factor x ∨ ∃ j, opened x = some j := by
  induction x with
  | nil => cases h
  | cons c r ih =>
    by_cases hd : c.isDigit = true
    · let d : Digits := ⟨(c :: r).takeWhile Char.isDigit, isDigits_takeWhile hd r⟩
      exact Or.inl ⟨d.chars, _, _, List.takeWhile_append_dropWhile.symm, .lit blank_nil d⟩
    by_cases hopen : c = '('
    · exact Or.inr ⟨r, by rw [opened, if_pos hopen]⟩
    simp only [digity, hd, Bool.false_or, Bool.and_eq_true, Bool.or_eq_true, beq_iff_eq, hopen,
      or_false] at h
    obtain ⟨hc, hr⟩ := h
    have hopened : opened (c :: r) = opened r := by
      rw [opened, if_neg hopen, if_pos (by simpa using hc)]
    rw [hopened]
    refine (ih hr).imp_left ?_
    rintro ⟨w, r', a, rfl, hw⟩
    rcases hc with (hblank | rfl) | rfl
    · exact ⟨[c] ++ w, r', a, rfl, hw.blank (by simpa [Blank] using hblank)⟩
    · exact ⟨'-' :: w, r', .neg a, rfl, .neg blank_nil hw⟩
    · exact ⟨'+' :: w, r', .pos a, rfl, .pos blank_nil hw⟩

theorem length_opened {x j : List Char} (h : opened x = some j) : j.length < x.length := by
  fun_induction opened x with
  | case1 => cases h
  | case2 r =>
    cases h
    exact Nat.lt_succ_self _
  | case3 c r _ _ ih => exact Nat.lt_succ_of_lt (ih h)
  | case4 => cases h

/-! ## The last operand of a chain -/

theorem Derives.tail_snoc {l : Level} {a b d : Ast} {v ws u : List Char} {c : Char} {o : Op}
    (h : Derives (.tail l a) v b) (hws : Blank ws) (hc : l.op c = some o)
    (hu : Derives l.operand u d) : Derives (.tail l a) (v ++ (ws ++ c :: u)) (.bin o b d) := by
  generalize hsym : Sym.tail l a = sym at h
  induction h generalizing l a with
  | stop =>
    cases hsym
    rw [List.nil_append, ← List.append_nil u]
    exact .next hws hc hu .stop
  | next hvs hc' hw htail _ ih =>
    cases hsym
    have hnext := Derives.next hvs hc' hw (ih hc hu rfl)
    simpa using hnext
  | _ => cases hsym

theorem Derives.chain_snoc {l : Level} {a d : Ast} {w ws u : List Char} {c : Char} {o : Op}
    (h : Derives (.chain l) w a) (hws : Blank ws) (hc : l.op c = some o)
    (hu : Derives l.operand u d) : Derives (.chain l) (w ++ (ws ++ c :: u)) (.bin o a d) := by
  cases h with
  | chain h htail =>
    rw [List.append_assoc]
    exact .chain h (htail.tail_snoc hws hc hu)

theorem Derives.tail_split {l : Level} {a b : Ast} {v : List Char} (h : Derives (.tail l a) v b) :
    v = [] ∧ b = a ∨ ∃ v' b' ws c o u d, v = v' ++ (ws ++ c :: u) ∧ Derives (.tail l a) v' b' ∧
      Blank ws ∧ l.op c = some o ∧ Derives l.operand u d ∧ b = .bin o b' d := by
  generalize hsym : Sym.tail l a = sym at h
  induction h generalizing l a with
  | stop =>
    cases hsym
    exact Or.inl ⟨rfl, rfl⟩
  | @next l a b b' ws w v c o hws hc hw htail _ ih =>
    cases hsym
    right
    rcases ih rfl with ⟨rfl, rfl⟩ | ⟨v', b'', ws', c', o', u, d, rfl, hv', hws', hc', hu, rfl⟩
    · exact ⟨[], a, ws, c, o, w, b, by simp, .stop, hws, hc, hw, rfl⟩
    · exact ⟨ws ++ c :: (w ++ v'), b'', ws', c', o', u, d, by simp, .next hws hc hw hv', hws', hc',
        hu, rfl⟩
  | _ => cases hsym

theorem Derives.chain_split {l : Level} {w : List Char} {a : Ast} (h : Derives (.chain l) w a) :
    Derives l.operand w a ∨ ∃ w' a' ws c o u d, w = w' ++ (ws ++ c :: u) ∧
      Derives (.chain l) w' a' ∧ Blank ws ∧ l.op c = some o ∧ Derives l.operand u d ∧
      a = .bin o a' d := by
  cases h with
  | @chain _ w v a' _ hw htail =>
    rcases htail.tail_split with ⟨rfl, rfl⟩ | ⟨v', b', ws, c, o, u, d, rfl, hv', hws, hc, hu, rfl⟩
    · exact Or.inl (by rwa [List.append_nil])
    · exact Or.inr ⟨w ++ v', b', ws, c, o, u, d, (List.append_assoc _ _ _).symm, .chain hw hv', hws,
        hc, hu, rfl⟩

/-! ## Every text leaves something -/

theorem exists_leftOver {i : List Char} (h : Begins (.chain .sum) i) : ∃ r, LeftOver i r := by
  classical
  have hlen : ∃ n w r a, i = w ++ r ∧ Derives (.chain .sum) w a ∧ r.length = n := by
    obtain ⟨w, r, a, hi, hw⟩ := h
    exact ⟨_, w, r, a, hi, hw, rfl⟩
  obtain ⟨w, r, a, hi, hw, hr⟩ := Nat.find_spec hlen
  refine ⟨r, ⟨w, a, hi, hw⟩, fun w' r' a' hi' hw' => ?_⟩
  rw [hr]
  exact Nat.find_min' hlen ⟨w', r', a', hi', hw', rfl⟩

theorem LeftOver.not_begins {l : Level} {w ws x : List Char} {a : Ast} {c : Char} {o : Op}
    (h : LeftOver (w ++ (ws ++ c :: x)) (ws ++ c :: x)) (hw : Derives (.chain .sum) w a)
    (hws : Blank ws) (hc : l.op c = some o) : ¬ Begins .factor x := by
  intro hx
  obtain ⟨u, r, d, rfl, hu⟩ := (begins_factor l).mpr hx
  obtain ⟨b, hb⟩ : ∃ b, Derives (.chain .sum) (w ++ (ws ++ c :: u)) b := by
    cases l with
    | sum => exact ⟨_, hw.chain_snoc hws hc hu⟩
    | product =>
      rcases hw.chain_split with hw | ⟨w', a', ws', c', o', v, b, rfl, hw', hws', hc', hv, rfl⟩
      · have hchain := Derives.chain (l := .sum) (hw.chain_snoc hws hc hu) .stop
        rw [List.append_nil] at hchain
        exact ⟨_, hchain⟩
      · have hchain := hw'.chain_snoc hws' hc' (hv.chain_snoc hws hc hu)
        exact ⟨.bin o' a' (.bin o b d), by simpa using hchain⟩
  have hle := h.2 _ r b (by simp) hb
  simp only [List.length_append, List.length_cons] at hle
  omega

theorem exists_residue (i : List Char) : ∃ as, Residue i as := by
  induction hn : i.length using Nat.strong_induction_on generalizing i with
  | _ n ih =>
    subst hn
    have hinner : ∀ {x j}, x.length ≤ i.length → opened x = some j → ∃ as, Residue j as :=
      fun hx hj => ih _ (Nat.lt_of_lt_of_le (length_opened hj) hx) _ rfl
    by_cases hd : digity i = false
    · exact ⟨[], .nothing hd⟩
    have hopened := begins_or_opened (x := i) (by simpa using hd)
    by_cases hbegins : Begins .factor i
    · obtain ⟨r, hr⟩ := exists_leftOver (begins_expression.mpr hbegins)
      obtain ⟨w, a, rfl, hw⟩ := hr.1
      by_cases hclean : dangling r = false
      · exact ⟨[a], .whole hw hr hclean⟩
      have htorn : ∃ l c x o, skip isSpace r = c :: x ∧ Level.op l c = some o ∧ digity x = true := by
        rcases Bool.or_eq_true_iff.mp (by simpa using hclean : dangling r = true) with h | h
        · exact ⟨_, Level.exists_dangling h⟩
        · exact ⟨_, Level.exists_dangling h⟩
      obtain ⟨l, c, x, o, hskip, hc, hx⟩ := htorn
      obtain ⟨ws, hws, rfl⟩ := exists_blanks hskip
      have hnot := hr.not_begins hw hws hc
      obtain ⟨j, hj⟩ := (begins_or_opened hx).resolve_left hnot
      obtain ⟨as, has⟩ := hinner (by simp; omega) hj
      cases l with
      | sum => exact ⟨_, .torn hw hws hc ⟨hj, hnot⟩ has⟩
      | product =>
        rcases hw.chain_split with hw | ⟨w', a', ws', c', o', v, b, rfl, hw', hws', hc', hv, rfl⟩
        · exact ⟨_, .torn hw hws hc ⟨hj, hnot⟩ has⟩
        · exact ⟨_, by simpa using Residue.joined hw' hws' hc' hv hws hc ⟨hj, hnot⟩ has⟩
    · obtain ⟨j, hj⟩ := hopened.resolve_left hbegins
      obtain ⟨as, has⟩ := hinner le_rfl hj
      exact ⟨as, .unclosed ⟨hj, hbegins⟩ has⟩

/-! ## What is read at an open parenthesis -/

/-- Where the rule does not throw it fails, after `expression` has read the text `j`. -/
def Opens (p : Rule) (x j : List Char) : Prop :=
  ∀ st y, p x st = .ok y → ∃ t m, y = (t, none) ∧ expression factor j st = .ok (t, m)

theorem Opens.seq {p q : Rule} {x j : List Char} (h : Opens p x j) :
    Opens (Recognizer.seq p q) x j := by
  intro st y hy
  rcases seq_eq_ok hy with ⟨t, hx, rfl⟩ | ⟨t, r, hx, -⟩
  · exact h st _ hx
  · obtain ⟨_, _, hnone, -⟩ := h st _ hx
    cases hnone

theorem factor_blank {c : Char} (hc : isSpace c = true) (r : List Char) (st : List String) :
    factor (c :: r) st = factor r st := by
  have hskip : skip isSpace (c :: r) = skip isSpace r := List.dropWhile_cons_of_pos hc
  rcases hr : skip isSpace r with _ | ⟨d, r'⟩
  · rw [factor_nil hr, factor_nil (hskip.trans hr)]
  · rw [factor_cons hr, factor_cons (hskip.trans hr)]

theorem factor_opened {x j : List Char} (h : opened x = some j) {st t : List String}
    (hx : factor x st = .ok (t, none)) : ∃ m, expression factor j st = .ok (t, m) := by
  fun_induction opened x with
  | case1 => cases h
  | case2 r =>
    cases h
    rw [← List.nil_append ('(' :: j), factor_paren blank_nil] at hx
    rcases seq_eq_ok hx with ⟨t', hj, hnone⟩ | ⟨t', r, hj, hclose⟩
    · cases hnone
      exact ⟨none, hj⟩
    · rcases ch_eq_ok hclose with hnone | ⟨r', -, hsome⟩
      · cases hnone
        exact ⟨some r, hj⟩
      · cases hsome
  | case3 c r _ hc ih =>
    simp only [Bool.or_eq_true, beq_iff_eq] at hc
    rcases hc with (hblank | rfl) | rfl
    · rw [factor_blank hblank] at hx
      exact ih h hx
    · rw [← List.nil_append ('-' :: r), factor_minus blank_nil] at hx
      exact ih h (action_eq_none hx)
    · rw [← List.nil_append ('+' :: r), factor_plus blank_nil] at hx
      exact ih h hx
  | case4 => cases h

theorem Unclosed.factor {x j : List Char} (h : Unclosed x j) : Opens Parser.factor x j := by
  rintro st ⟨t, _ | r⟩ hy
  · obtain ⟨m, hm⟩ := factor_opened h.1 hy
    exact ⟨t, m, rfl, hm⟩
  · obtain ⟨w, a, hi, hw, -⟩ := accounts_factor x st _ hy
    exact absurd ⟨w, r, a, hi, hw⟩ h.2

theorem Unclosed.inner (l : Level) {x j : List Char} (h : Unclosed x j) : Opens l.inner x j := by
  cases l with
  | sum => exact h.factor.seq
  | product => exact h.factor

theorem Unclosed.expression {x j : List Char} (h : Unclosed x j) :
    Opens (Parser.expression Parser.factor) x j := (h.inner .sum).seq

/-! ## What is written -/

/-- The second stack is the first one with the postfix lists of these parse trees on it. -/
def Writes (as : List Ast) (st st' : List String) : Prop :=
  ∃ ts : List NumExpr, List.Forall₂ (fun a e => a.fold = .ok e) as ts ∧ st' = st ++ written ts

theorem Writes.cons {a : Ast} {e : NumExpr} (ha : a.fold = .ok e) {as : List Ast}
    {st st' : List String} (h : Writes as (st ++ e.tokens) st') : Writes (a :: as) st st' := by
  obtain ⟨ts, hts, rfl⟩ := h
  exact ⟨e :: ts, .cons ha hts, by rw [written_cons, List.append_assoc]⟩

theorem Writes.joinLast {as : List Ast} {st st' : List String} (h : Writes as st st')
    (hlen : 2 ≤ as.length) (o : Op) : Writes (Postfix.joinLast (.bin o) as) st (st' ++ [o.name]) := by
  obtain ⟨ts, hts, rfl⟩ := h
  refine ⟨Postfix.joinLast (.node o) ts,
    forall₂_joinLast (fun _ _ _ _ hx hy => fold_bin hx hy o) hts, ?_⟩
  have hwritten := codes_joinLast Numeral.text Op.name o (hts.length_eq ▸ hlen)
  rw [List.append_assoc, hwritten]

theorem rule_torn {l : Level} {w ws x j : List Char} {a : Ast} {c : Char} {o : Op}
    (hw : Derives (.chain l) w a) (hws : Blank ws) (hc : l.op c = some o) (h : Unclosed x j)
    {st : List String} {y : List String × Option (List Char)}
    (hy : l.rule l.inner (w ++ (ws ++ c :: x)) st = .ok y) :
    ∃ e t m, a.fold = .ok e ∧ y = (t, some (ws ++ c :: x)) ∧
      expression factor j (st ++ e.tokens) = .ok (t, m) := by
  have hskip := skip_op hws hc x
  rw [hw.chain_read (Level.quiet_op hskip hc)] at hy
  obtain ⟨e, he, hy⟩ := Except.bind_eq_ok.mp hy
  rw [l.more_next l.consumes_inner hskip hc] at hy
  rcases hx : l.inner x (st ++ e.tokens) with f | z
  · rw [hx, followed_error] at hy
    cases hy
  · obtain ⟨t, m, rfl, hj⟩ := h.inner l _ z hx
    rw [hx, followed_none] at hy
    cases hy
    exact ⟨e, t, m, he, rfl, hj⟩

theorem expression_torn {l : Level} {w ws x j : List Char} {a : Ast} {c : Char} {o : Op}
    (hw : Derives (.chain l) w a) (hws : Blank ws) (hc : l.op c = some o) (h : Unclosed x j)
    {st : List String} {y : List String × Option (List Char)}
    (hy : expression factor (w ++ (ws ++ c :: x)) st = .ok y) :
    ∃ e m, a.fold = .ok e ∧ expression factor j (st ++ e.tokens) = .ok (y.1, m) := by
  cases l with
  | sum =>
    obtain ⟨e, t, m, he, rfl, hj⟩ := rule_torn (l := .sum) hw hws hc h hy
    exact ⟨e, m, he, hj⟩
  | product =>
    rcases seq_eq_ok (q := Level.sum.more (term factor)) hy with ⟨t, hx, rfl⟩ | ⟨t, r, hx, hmore⟩
    · obtain ⟨_, _, _, -, hsome, -⟩ := rule_torn (l := .product) hw hws hc h hx
      cases hsome
    · obtain ⟨e, _, m, he, hsome, hj⟩ := rule_torn (l := .product) hw hws hc h hx
      cases hsome
      rw [Level.more_stop consumes_term (Level.ends_sum_op (skip_op hws hc x) hc)] at hmore
      cases hmore
      exact ⟨e, m, he, hj⟩

theorem expression_joined {w ws v ws' x j : List Char} {a b : Ast} {c c' : Char} {o o' : Op}
    (hw : Derives (.chain .sum) w a) (hws : Blank ws) (hc : Level.sum.op c = some o)
    (hv : Derives (.chain .product) v b) (hws' : Blank ws') (hc' : Level.product.op c' = some o')
    (h : Unclosed x j) {st : List String} {y : List String × Option (List Char)}
    (hy : expression factor (w ++ (ws ++ c :: (v ++ (ws' ++ c' :: x)))) st = .ok y) :
    ∃ e e' t m, a.fold = .ok e ∧ b.fold = .ok e' ∧ y.1 = t ++ [o.name] ∧
      expression factor j (st ++ e.tokens ++ e'.tokens) = .ok (t, m) := by
  have hskip := skip_op hws hc (v ++ (ws' ++ c' :: x))
  have hread := hw.chain_read (Level.quiet_op hskip hc) st
  obtain ⟨e, he, hy⟩ := Except.bind_eq_ok.mp (hread.symm.trans hy)
  rw [Level.more_next (Level.consumes_inner .sum) hskip hc] at hy
  rcases hx : Level.sum.inner (v ++ (ws' ++ c' :: x)) (st ++ e.tokens) with f | z
  · rw [hx, followed_error] at hy
    cases hy
  · obtain ⟨e', t, m, he', rfl, hj⟩ := rule_torn (l := .product) hv hws' hc' h hx
    have hends := Level.ends_sum_op (skip_op hws' hc' x) hc'
    rw [hx, followed_some, Level.more_stop (Level.consumes_inner .sum) hends] at hy
    cases hy
    exact ⟨e, e', t, m, he, he', rfl, hj⟩

theorem Residue.writes {i : List Char} {as : List Ast} (h : Residue i as) {st : List String}
    {y : List String × Option (List Char)} (hy : expression factor i st = .ok y) :
    Writes as st y.1 := by
  induction h generalizing st y with
  | @nothing i hd =>
    have hacc := accounts_expression (fun k _ => accounts_factor k) st y hy
    rcases y with ⟨st', _ | r⟩
    · obtain ⟨ts, rfl, hts⟩ := hacc
      exact ⟨[], .nil, by rw [hts.mpr hd]⟩
    · obtain ⟨w, a, rfl, hw, -⟩ := hacc
      rw [hw.digity (by simp)] at hd
      cases hd
  | @whole w r a hw hr hclean =>
    have hacc := accounts_expression (fun k _ => accounts_factor k) st y hy
    rcases y with ⟨st', _ | r'⟩
    · exact absurd hw (not_derives_of_failed hy rfl)
    · obtain rfl := (leftOver_of_matched hy).unique hr
      obtain ⟨w', a', hi, hw', ⟨-, e', he', rfl⟩ | ⟨htorn, -⟩⟩ := hacc
      · obtain rfl := List.append_cancel_right hi
        obtain ⟨e, he, htokens⟩ := hw'.tokens_unique hw (by simp) he'
        exact ⟨[e], .cons he .nil, by rw [written_one, htokens]⟩
      · rw [hclean] at htorn
        cases htorn
  | unclosed h hj ih =>
    obtain ⟨t, m, rfl, hread⟩ := h.expression st y hy
    have hwrites := ih hread
    exact hwrites
  | torn hw hws hc h hj ih =>
    obtain ⟨e, m, he, hread⟩ := expression_torn hw hws hc h hy
    exact (ih hread).cons he
  | joined hw hws hc hv hws' hc' h hj ih =>
    obtain ⟨e, e', t, m, he, he', hstack, hread⟩ := expression_joined hw hws hc hv hws' hc' h hy
    rw [hstack]
    exact (((ih hread).cons he').cons he).joinLast (by simp) _

/-- **What `parse` leaves on the stack**, whatever it says about the text. -/
theorem parse_residue {s : String} {st : List String} {y : List String × Option (List Char)}
    (h : parse s st = .ok y) {as : List Ast} (has : Residue (cStr s) as) : Writes as st y.1 :=
  has.writes h

end DispCalc.Parser
