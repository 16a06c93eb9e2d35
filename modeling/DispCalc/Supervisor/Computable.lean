import DispCalc.ExprTree.Forest
import DispCalc.Supervisor.Progress
import DispCalc.Supervisor.Requests

/-!
# Which lists are computable

The parser leaves whole expressions, but the source does not look at how many, or whether
there is one. This says for which of its lists only expressions reach an evaluator.
-/

open Postfix Runs DispCalc.Parser

namespace DispCalc.ClientControllerSupervisor

variable {ι : Type}

/-! ## What the parser leaves -/

theorem token_cases (e : NumExpr) :
    ∀ x ∈ e.tokens, isOp x = true ∨ startsNumeral x = true ∧ ∃ i, numeral? x = some i := by
  induction e with
  | leaf n =>
    intro x hx
    rw [List.mem_singleton.mp hx]
    exact Or.inr ⟨n.starts, n.value, n.reads⟩
  | node o l r ihl ihr =>
    intro x hx
    simp only [tokens_node, List.mem_append, List.mem_singleton] at hx
    rcases hx with (hx | hx) | rfl
    · exact ihl x hx
    · exact ihr x hx
    · exact Or.inl (isOp_name o)

theorem written_cases {ts : List NumExpr} {x : String} (hx : x ∈ written ts) :
    isOp x = true ∨ startsNumeral x = true ∧ ∃ i, numeral? x = some i := by
  obtain ⟨e, -, he⟩ := List.mem_flatMap.mp hx
  exact token_cases e x he

theorem written_ne_null {ts : List NumExpr} {x : String} (hx : x ∈ written ts) :
    x ≠ ExprTree.null := by
  rintro rfl
  rcases written_cases hx with hop | ⟨hstarts, -⟩
  · exact absurd hop (by decide)
  · exact absurd hstarts (by decide)

/-! ## Dispatch of what was parsed -/

theorem forest_of_written {us : List NumExpr} {y z : NumExpr} {tree : ExprTree}
    (htree : ExprTree.regenerate (written (us ++ [y, z])) = .ok tree) :
    ∃ (n : Numeral) (l : Option NumExpr) (height : Nat), z = .leaf n ∧
      tree = ExprTree.forestHeap (toOperand n) (l.map (Expr.map toOperand)) (y.map toOperand) ∧
      tree.height = height ∧ height ≤ 30 := by
  have hcodes : codes ExprTree.Operand.text Op.name
      (us.map (Expr.map toOperand) ++ [y.map toOperand, z.map toOperand]) = written (us ++ [y, z]) := by
    rw [← written_toOperand, List.map_append]
    rfl
  obtain ⟨x, l, hz, hl, hforest⟩ := ExprTree.regenerate_forest rfl (hcodes ▸ htree)
  obtain ⟨n, rfl, rfl⟩ : ∃ n, z = .leaf n ∧ toOperand n = x := by
    rcases z with n | ⟨o, l, r⟩
    · exact ⟨n, rfl, by simpa [Expr.map] using hz⟩
    · cases hz
  obtain ⟨l', rfl⟩ : ∃ l' : Option NumExpr, l'.map (Expr.map toOperand) = l := by
    rcases l with _ | e
    · exact ⟨none, rfl⟩
    · obtain ⟨e', -, rfl⟩ := List.mem_map.mp (hl e rfl)
      exact ⟨some e', rfl⟩
  have htwo : 2 ≤ (written (us ++ [y, .leaf n])).length := by
    have := List.length_pos_iff.mpr (Expr.code_ne_nil Numeral.text Op.name y)
    simp only [written, codes_append, codes_cons, codes_nil, List.length_append, Expr.code,
      List.length_singleton]
    omega
  obtain ⟨-, hlen, hbound, -⟩ := ExprTree.grown_regenerate (fun v hv => written_ne_null hv) htree htwo
  obtain ⟨height, hheight, hle⟩ := ExprTree.height_natural (by omega) hbound
  exact ⟨n, l', height, rfl, hforest, hheight, hle⟩

theorem exists_chunk {ts : List NumExpr} (hts : ts ≠ []) {tree : ExprTree}
    (htree : ExprTree.regenerate (written ts) = .ok tree) (m : Nat) :
    (∃ height : Nat, tree.height = height ∧ height ≤ 30) ∧ ∃ l, tree.chunk m = .ok l := by
  obtain ⟨us, z, rfl⟩ := (List.eq_nil_or_concat ts).resolve_left hts
  rcases List.eq_nil_or_concat us with rfl | ⟨us, y, rfl⟩
  · have hone : written (List.concat [] z) = ExprTree.OpExpr.tokens (z.map toOperand) := by
      rw [tokens_toOperand]
      exact written_one z
    obtain ⟨rfl, hle⟩ := ExprTree.regenerate_tokens_of_ok (hone ▸ htree)
    exact ⟨⟨_, ExprTree.height_heap_toTree _, hle⟩, _, ExprTree.chunk_heap hle⟩
  · simp only [List.concat_eq_append, List.append_assoc, List.singleton_append] at htree
    obtain ⟨n, l, height, -, rfl, hheight, hle⟩ := forest_of_written htree
    refine ⟨⟨height, hheight, hle⟩, ?_⟩
    rcases Nat.lt_or_ge m height with hlt | hge
    · exact ⟨_, ExprTree.chunk_forest (by omega) (by omega)⟩
    · exact ⟨_, by rw [ExprTree.chunk, ExprTree.chunkFrom, if_pos (by omega)]⟩

theorem exists_sendTasks_of_parse {s : String} {stack : List String} {o : Option (List Char)}
    (hparse : parse s [] = .ok (stack, o)) {tree : ExprTree}
    (htree : ExprTree.regenerate stack = .ok tree) (max_h : Nat) :
    ∃ st0 : ClientControllerSupervisor ι, sendTasks stack max_h = .ok st0 := by
  obtain ⟨ts, rfl⟩ := parse_written hparse
  refine exists_sendTasks htree fun hlt => ?_
  by_cases hts : ts = []
  · subst hts
    obtain rfl := Except.ok.inj htree
    have hheight : ({} : ExprTree).height = intMin := rfl
    exact ⟨[{}], by rw [ExprTree.chunk, ExprTree.chunkFrom, hheight, if_pos (toInt_ge _)]⟩
  · obtain ⟨⟨height, hheight, hle⟩, l, hl⟩ := exists_chunk hts htree (maxHeight max_h)
    rw [hheight, toSizeT_natural hle] at hlt
    rw [toInt_maxHeight (by omega)]
    exact ⟨l, hl⟩

/-! ## Lists that are computable -/

variable [DecidableEq ι] [ToString ι]

/-- The list is that of one expression, or it ends with a numeral and its tree is not cut: then
that numeral is all that is evaluated. -/
def Computable (max_h : Nat) (stack : List String) : Prop :=
  (∃ e : NumExpr, stack = e.tokens) ∨
    (∃ x, stack.getLast? = some x ∧ isOp x = false) ∧
      ∀ tree, ExprTree.regenerate stack = .ok tree → tree.height ≤ maxHeight max_h

theorem lists_of_computable {s : String} {stack : List String} {o : Option (List Char)}
    (hparse : parse s [] = .ok (stack, o)) {tree : ExprTree}
    (htree : ExprTree.regenerate stack = .ok tree) {max_h : Nat} (hcond : Computable max_h stack)
    {st0 st : ClientControllerSupervisor ι} (hsend : sendTasks stack max_h = .ok st0)
    (hrun : Reaches step (fun st e => inTime st e = true) st0 st) : Lists st := by
  rcases hcond with ⟨e, rfl⟩ | ⟨⟨x, hx, hop⟩, hlow⟩
  · exact lists_of_expr hsend hrun
  obtain ⟨ts, rfl⟩ := parse_written hparse
  obtain ⟨hstarts, i, hi⟩ :=
    (written_cases (List.mem_of_getLast? hx)).resolve_left (by simp [hop])
  rcases Nat.lt_or_ge (written ts).length 2 with hlt | hge
  · -- A single token is an expression.
    have hone : written ts = NumExpr.tokens (.leaf ⟨x, i, hstarts, hi⟩) := by
      rw [tokens_leaf]
      rcases hw : written ts with _ | ⟨y, _ | ⟨z, l⟩⟩
      · simp [hw] at hx
      · simpa [hw] using hx
      · simp only [hw, List.length_cons] at hlt
        omega
    rw [hone] at htree hsend
    exact lists_of_expr hsend hrun
  · obtain ⟨-, hlen, hbound, hlast⟩ :=
      ExprTree.grown_regenerate (fun v hv => written_ne_null hv) htree hge
    obtain rfl : x = tree.get 1 := Option.some.inj (hx.symm.trans hlast)
    obtain ⟨height, hheight, hle⟩ := ExprTree.height_natural (by omega) hbound
    have hmax := hlow tree htree
    rw [hheight] at hmax
    exact lists_of_root htree hstarts hi hheight hle (by exact_mod_cast hmax) hsend hrun

/-! ## The other lists -/

theorem not_wellFormed_null : ¬ WellFormed [ExprTree.null] := by
  rintro ⟨e, he⟩
  rcases token_cases e ExprTree.null (by simp [← he]) with hop | ⟨hstarts, -⟩
  · exact absurd hop (by decide)
  · exact absurd hstarts (by decide)

theorem exists_final [Infinite ι] {st0 : ClientControllerSupervisor ι} (hfresh : Fresh st0)
    (hwork : HasWork st0) :
    ∃ st f ss, Reaches step (fun st e => inTime st e = true) st0 st ∧ f ∈ st.finals ∧
      countStack f.entries = .ok ss ∧ List.Forall₂ ResultOf ss st0.chunkedTree := by
  obtain ⟨st, hrun, hfin, hended⟩ : ∃ st, Reaches step (calm fun _ _ _ => True) st0 st ∧
      st.finished = true ∧ st.allEnded :=
    completes hfresh (fun _ _ _ _ _ => ⟨⟨0, by decide⟩, trivial⟩) (Reaches.refl st0)
  obtain ⟨f, hf, -⟩ := final_of_results hfresh afterLoop_of_calm hrun
    (by rw [HasWork, chunkedTree_of_reaches hrun]; exact hwork) hfin fun _ _ htask =>
      results_of_calm hfresh hrun hended htask
  have hrun' : Reaches step (fun st e => inTime st e = true) st0 st := by
    refine hrun.weaken_of (fun t ht => inv_of_reaches hfresh ht) fun s ev hinv hok => ?_
    rcases ev with c | _ | ⟨c, value, idx⟩ | c | c
    case result => simp [inTime, hinv.length_of_finished hok.1]
    all_goals rfl
  obtain ⟨ss, hss, hres⟩ := final_of_fresh hfresh hrun' (f := f) (by simp [hf])
  exact ⟨st, f, ss, hrun', by simp [hf], hss, hres⟩

theorem not_lists_of_empty [Infinite ι] {max_h : Nat} {st0 : ClientControllerSupervisor ι}
    (hsend : sendTasks [] max_h = .ok st0) :
    ∃ st, Reaches step (fun st e => inTime st e = true) st0 st ∧ ¬ Lists st := by
  have htree : ExprTree.regenerate [] = .ok {} := rfl
  have hstack : ({} : ExprTree).toStack 1 = [ExprTree.null] := by decide
  rcases sendTasks_cases htree hsend with ⟨-, hd, hchunk⟩ | ⟨-, -, f, hf, hcount⟩
  · have hfresh := hd.fresh
    have hheight : ({} : ExprTree).height = intMin := rfl
    rw [ExprTree.chunk, ExprTree.chunkFrom, hheight, if_pos (toInt_ge _)] at hchunk
    have hchunks := Except.ok.inj hchunk
    obtain ⟨hit, -, hpoint⟩ := hfresh.start
    obtain ⟨c, -⟩ := exists_fresh hfresh.inv hpoint
    have hstep : ∃ st, st0.step (.createThread c) = some st ∧
        ∃ task, st.tasks c = some task ∧ task.expr = ({} : ExprTree).toStack 1 := by
      simp [step, createThread, hpoint, hit, ← hchunks, hheight, intMin, hfresh.tasks]
    obtain ⟨st, hstep, task, htask, hexpr⟩ := hstep
    refine ⟨st, (Reaches.refl st0).tail rfl hstep, fun hlists => not_wellFormed_null ?_⟩
    rw [← hstack, ← hexpr]
    exact hlists.tasks c task htask
  · rw [hstack] at hcount
    exact ⟨st0, Reaches.refl st0, fun hlists =>
      not_wellFormed_null (hlists.finals f (by simp [hf]) _ hcount)⟩

theorem weight_leftPieces {m : Nat} {l : Option NumExpr} {ss : List String}
    (h : List.Forall₂ ResultOf ss (ExprTree.leftPieces m (l.map (Expr.map toOperand)))) :
    Postfix.weight isOp ss = 1 := by
  rcases l with _ | e
  · obtain ⟨v, _, hv, htail, rfl⟩ := List.forall₂_cons_right_iff.mp h
    obtain rfl := List.forall₂_nil_right_iff.mp htail
    have hzero : (({} : ExprTree).add 1 ExprTree.null).height = (0 : Nat) :=
      ExprTree.height_heap (T := .node ExprTree.null .nil .nil) (by simp)
    rcases hv with ⟨-, rfl⟩ | ⟨hne, -⟩
    · decide
    · exact absurd hzero hne
  · rw [Option.map_some, ExprTree.leftPieces, Option.elim_some, map_pieceHeap] at h
    exact (wellFormed_of_pieces h).weight

theorem weight_append_operand {ss : List String} {l1 l2 : List ExprTree} {x : ExprTree.Operand}
    (h : List.Forall₂ ResultOf ss (l1 ++ l2 ++ [({} : ExprTree).add 1 x.text]))
    (h1 : ∀ ss, List.Forall₂ ResultOf ss l1 → Postfix.weight isOp ss = 1)
    (h2 : ∀ ss, List.Forall₂ ResultOf ss l2 → Postfix.weight isOp ss = 1) :
    Postfix.weight isOp ss = 3 := by
  have hargs := List.forall₂_take_append ss _ _ h
  obtain ⟨y, _, hy, hnil, hlast⟩ :=
    List.forall₂_cons_right_iff.mp (List.forall₂_drop_append ss _ _ h)
  obtain rfl := List.forall₂_nil_right_iff.mp hnil
  have hroot : y = x.text := by
    have hzero : (({} : ExprTree).add 1 x.text).height = (0 : Nat) :=
      ExprTree.height_heap (T := .node x.text .nil .nil) (by simp)
    rcases hy with ⟨-, rfl⟩ | ⟨hne, -⟩
    · exact (ExprTree.get_add le_rfl _ _ _).trans (if_pos rfl)
    · exact absurd hzero hne
  have hw1 := h1 _ (List.forall₂_take_append _ _ _ hargs)
  have hw2 := h2 _ (List.forall₂_drop_append _ _ _ hargs)
  rw [← List.take_append_drop (l1 ++ l2).length ss, hlast,
    ← List.take_append_drop l1.length (ss.take (l1 ++ l2).length), Postfix.weight_append,
    Postfix.weight_append, hw1, hw2, hroot]
  simp [x.notOp]

theorem not_lists_of_forest [Infinite ι] {us : List NumExpr} {y z : NumExpr} {tree : ExprTree}
    (htree : ExprTree.regenerate (written (us ++ [y, z])) = .ok tree) {max_h : Nat}
    {st0 : ClientControllerSupervisor ι} (hsend : sendTasks (written (us ++ [y, z])) max_h = .ok st0)
    (hcond : ¬ Computable max_h (written (us ++ [y, z]))) :
    ∃ st, Reaches step (fun st e => inTime st e = true) st0 st ∧ ¬ Lists st := by
  obtain ⟨n, l, height, rfl, hforest, hheight, hle⟩ := forest_of_written htree
  have hlast : (written (us ++ [y, .leaf n])).getLast? = some n.text := by
    simp [written, codes, Expr.code]
  have hhigh : maxHeight max_h < height := by
    by_contra hlow
    refine hcond (Or.inr ⟨⟨n.text, hlast, isOp_of_startsNumeral n.starts⟩, fun t ht => ?_⟩)
    obtain rfl := Except.ok.inj (htree.symm.trans ht)
    omega
  have hmax : max_h ≤ maxHeight max_h := by
    rw [maxHeight_eq]
    exact le_max_left max_h 1
  obtain ⟨-, hd, hchunk⟩ := (sendTasks_cases htree hsend).resolve_right
    fun hlocal => by
      have := hlocal.1
      rw [hheight, toSizeT_natural hle] at this
      omega
  rw [toInt_of_le (by omega), hforest,
    ExprTree.chunk_forest (by rw [← hforest]; omega) (by rw [← hforest]; omega)] at hchunk
  obtain ⟨st, f, ss, hreach, hf, hss, hres⟩ :=
    exists_final hd.fresh (hd.hasWork fun v hv => written_ne_null hv)
  rw [← Except.ok.inj hchunk] at hres
  have hthree := weight_append_operand hres (fun ss' h1 => weight_leftPieces h1) fun ss' h2 => by
    rw [map_pieceHeap] at h2
    exact (wellFormed_of_pieces h2).weight
  refine ⟨st, hreach, fun hlists => ?_⟩
  rw [(hlists.finals f hf ss hss).weight] at hthree
  exact absurd hthree (by decide)

/-- Whatever was typed: the lists that reach an evaluator are expressions, in every run where
results come in time, exactly when the list that the parser leaves is computable. -/
theorem requests_computable_iff [Infinite ι] {s : String} {stack : List String}
    {o : Option (List Char)} (hparse : parse s [] = .ok (stack, o)) {tree : ExprTree}
    (htree : ExprTree.regenerate stack = .ok tree) (max_h : Nat) :
    ∃ st0 : ClientControllerSupervisor ι, sendTasks stack max_h = .ok st0 ∧
      ((∀ st, Reaches step (fun st e => inTime st e = true) st0 st →
        Lists st ∧ ∀ c task, st.tasks c = some task → ∀ identifier table i,
          (ServerMethodCompute.execute task.expr identifier table).1 ≠ .error (i, .emptyStack)) ↔
        Computable max_h stack) := by
  obtain ⟨st0, hsend⟩ := exists_sendTasks_of_parse (ι := ι) hparse htree max_h
  refine ⟨st0, hsend, fun hall => ?_, fun hcond st hrun => ?_⟩
  · by_contra hcond
    obtain ⟨st, hrun, hnot⟩ : ∃ st, Reaches step (fun st e => inTime st e = true) st0 st ∧
        ¬ Lists st := by
      obtain ⟨ts, rfl⟩ := parse_written hparse
      rcases List.eq_nil_or_concat ts with rfl | ⟨us, z, rfl⟩
      · exact not_lists_of_empty hsend
      rcases List.eq_nil_or_concat us with rfl | ⟨us, y, rfl⟩
      · exact absurd (Or.inl ⟨z, written_one z⟩) hcond
      · simp only [List.concat_eq_append, List.append_assoc, List.singleton_append] at htree hsend hcond
        exact not_lists_of_forest htree hsend hcond
    exact hnot (hall st hrun).1
  · have hlists := lists_of_computable hparse htree hcond hsend hrun
    exact ⟨hlists, fun c task hc => (hlists.tasks c task hc).execute_ne⟩

theorem requests_computable_of_sum :
    ∃ st0 : ClientControllerSupervisor Nat, sendTasks ["1", "2", "ADD"] 0 = .ok st0 ∧
      ((∀ st, Reaches step (fun st e => inTime st e = true) st0 st →
        Lists st ∧ ∀ c task, st.tasks c = some task → ∀ identifier table i,
          (ServerMethodCompute.execute task.expr identifier table).1 ≠ .error (i, .emptyStack)) ↔
        Computable 0 ["1", "2", "ADD"]) :=
  requests_computable_iff (rfl : parse "1+2" [] = .ok (["1", "2", "ADD"], some []))
    (rfl : ExprTree.regenerate ["1", "2", "ADD"] = .ok ⟨["ADD", "1", "2"]⟩) 0

/-- Nothing was typed, and a task asks for the value of the null mark. -/
theorem null_sent :
    ¬ ∀ (s : String) (stack : List String) (o : Option (List Char)) (max_h : Nat)
      (st0 st : ClientControllerSupervisor Nat), parse s [] = .ok (stack, o) →
      sendTasks stack max_h = .ok st0 → Reaches step (fun _ _ => True) st0 st → Lists st := by
  intro h
  obtain ⟨st0, st, hsend, hplay, task, htask, hexpr⟩ :
      ∃ st0 st : ClientControllerSupervisor Nat, sendTasks [] 2 = .ok st0 ∧
        play step (fun _ _ => true) st0 [.createThread 7] = some st ∧
        ∃ task, st.tasks 7 = some task ∧ task.expr = [ExprTree.null] :=
    ⟨_, _, rfl, rfl, _, rfl, rfl⟩
  have hlists := h "" [] none 2 st0 st rfl hsend
    ((reaches_of_play hplay).weaken fun _ _ _ => trivial)
  exact not_wellFormed_null (hexpr ▸ hlists.tasks 7 task htask)

end DispCalc.ClientControllerSupervisor
