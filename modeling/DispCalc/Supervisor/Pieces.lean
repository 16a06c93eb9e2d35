import DispCalc.Supervisor.Dispatch

/-!
# Expressions in a supervisor

Where `run` evaluates on the spot nothing happens any more. Where it dispatches an expression
the elements of `chunkedTree` are the pieces of its cut, and an entry holds what the loop has
copied or a task has delivered.
-/

open Postfix Runs

namespace DispCalc.ClientControllerSupervisor

open ExprTree (Operand)

variable {α ι : Type}

/-! ## Evaluation on the spot -/

structure Idle (st : ClientControllerSupervisor ι) : Prop where
  chunkedTree : st.chunkedTree = []
  point : st.point = .test
  tasks : ∀ c, st.tasks c = none

theorem Idle.finished {st : ClientControllerSupervisor ι} (h : Idle st) : st.finished = true := by
  simp [ClientControllerSupervisor.finished, h.point, h.chunkedTree]

theorem Idle.allEnded {st : ClientControllerSupervisor ι} (h : Idle st) : st.allEnded :=
  fun c task htask => by simp [h.tasks] at htask

theorem countStack_of_results {entries : List (ThreadResult ι)} {ss : List String}
    (h : entries.map ThreadResult.result = ss.map some) : countStack entries = .ok ss := by
  induction entries generalizing ss with
  | nil =>
    rcases ss with _ | ⟨s, ss⟩
    · rfl
    · simp at h
  | cons r entries ih =>
    rcases ss with _ | ⟨s, ss⟩
    · simp at h
    · obtain ⟨hr, hrest⟩ : r.result = some s ∧ entries.map ThreadResult.result = ss.map some := by
        simpa using h
      have htail := ih hrest
      unfold countStack at htail
      simp only [countStack, List.mapM_cons, hr, htail, bind, Except.bind, pure, Except.pure]

theorem sendTasks_local {s : List String} {tree : ExprTree} (hreg : ExprTree.regenerate s = .ok tree)
    {max_h : Nat} (hle : toSizeT tree.height ≤ max_h) :
    ∃ st0 : ClientControllerSupervisor ι, sendTasks s max_h = .ok st0 ∧ Idle st0 ∧
      ∃ f, st0.finals = [f] ∧ countStack f.entries = .ok (tree.toStack 1) ∧
        f.answer = Computer.compute (tree.toStack 1) := by
  have hcount : countStack ((tree.toStack 1).map fun s => (⟨none, some s⟩ : ThreadResult ι)) =
      .ok (tree.toStack 1) := countStack_of_results (by simp)
  have hrun : run (ι := ι) tree max_h = .ok (assignResultStack tree
      { messages := ["Wysokosc stosu jest za mala by oplacalo sie je przysylac"] }).finalComputation :=
    if_pos hle
  refine ⟨_, by simp only [sendTasks, hreg, bind, Except.bind]; exact hrun, ⟨rfl, rfl, fun _ => rfl⟩,
    _, rfl, hcount, ?_⟩
  simp only [assignResultStack, List.nil_append, hcount]
  rfl

theorem sendTasks_cases {s : List String} {tree : ExprTree} (hreg : ExprTree.regenerate s = .ok tree)
    {max_h : Nat} {st0 : ClientControllerSupervisor ι} (hsend : sendTasks s max_h = .ok st0) :
    (max_h < toSizeT tree.height ∧ Dispatches s max_h st0 ∧
      tree.chunk (toInt (maxHeight max_h)) = .ok st0.chunkedTree) ∨
    (toSizeT tree.height ≤ max_h ∧ Idle st0 ∧
      ∃ f, st0.finals = [f] ∧ countStack f.entries = .ok (tree.toStack 1)) := by
  rcases Nat.lt_or_ge max_h (toSizeT tree.height) with hlt | hge
  · have hdispatch : dispatchTree tree max_h = .ok st0 := by
      simpa only [sendTasks, hreg, bind, Except.bind, run, if_neg (Nat.not_le.mpr hlt)] using hsend
    exact Or.inl ⟨hlt, ⟨tree, hreg, hlt, hdispatch⟩, (dispatchTree_ok hdispatch).1⟩
  · obtain ⟨st1, hsend1, hidle, f, hf, hcount, -⟩ := sendTasks_local (ι := ι) hreg hge
    obtain rfl := Except.ok.inj (hsend1.symm.trans hsend)
    exact Or.inr ⟨hge, hidle, f, hf, hcount⟩

theorem exists_sendTasks {s : List String} {tree : ExprTree} (hreg : ExprTree.regenerate s = .ok tree)
    {max_h : Nat} (hchunk : max_h < toSizeT tree.height →
      ∃ l, tree.chunk (toInt (maxHeight max_h)) = .ok l) :
    ∃ st0 : ClientControllerSupervisor ι, sendTasks s max_h = .ok st0 := by
  rcases Nat.lt_or_ge max_h (toSizeT tree.height) with hlt | hge
  · obtain ⟨l, hl⟩ := hchunk hlt
    obtain ⟨st0, hst0, -⟩ := dispatchTree_of_chunk (ι := ι) hl
    exact ⟨st0, sendTasks_of_dispatches ⟨tree, hreg, hlt, hst0⟩⟩
  · obtain ⟨st0, hst0, -⟩ := sendTasks_local (ι := ι) hreg hge
    exact ⟨st0, hst0⟩

/-! ## Pieces -/

/-- The elements of `chunkedTree` for the expression `e`, cut at `m`. -/
def piecesOf (h : α → Operand) (m : Nat) (e : Expr α Op) : List ExprTree :=
  (cut m e).map fun p => ExprTree.pieceHeap (p.map h)

abbrev tokensOf (h : α → Operand) (e : Expr α Op) : List String :=
  e.code (fun a => (h a).text) Op.name

variable {h : α → Operand}

theorem map_pieceHeap (m : Nat) (e : Expr α Op) :
    (cut m (e.map h)).map ExprTree.pieceHeap = piecesOf h m e := by
  rw [cut_map, List.map_map]
  rfl

theorem height_piece (p : Piece α Op) : (ExprTree.pieceHeap (p.map h)).height = p.height := by
  rw [ExprTree.height_pieceHeap]
  rcases p with e | o
  · exact congrArg Nat.cast (Expr.height_map h e)
  · rfl

theorem code_piece (p : Piece α Op) :
    (p.map h).code Operand.text Op.name = p.code (fun a => (h a).text) Op.name := by
  rcases p with e | o
  · exact Expr.code_map h Operand.text Op.name e
  · rfl

theorem part_of_piecesOf {m k : Nat} {e : Expr α Op} {t : ExprTree}
    (ht : (piecesOf h m e)[k]? = some t) (hheight : t.height ≠ 0) :
    ∃ e', (cut m e)[k]? = some (.part e') ∧ 1 ≤ Expr.height e' ∧ t.toStack 1 = tokensOf h e' := by
  simp only [piecesOf, List.getElem?_map, Option.map_eq_some_iff] at ht
  obtain ⟨p, hp, rfl⟩ := ht
  rw [height_piece] at hheight
  rcases p with e' | o
  · refine ⟨e', hp, ?_, ?_⟩
    · simpa [Piece.height, Nat.one_le_iff_ne_zero] using hheight
    · rw [ExprTree.toStack_pieceHeap, code_piece]
      rfl
  · simp [Piece.height] at hheight

theorem code_of_copied {m k : Nat} {e : Expr α Op} {t : ExprTree} {p : Piece α Op}
    (ht : (piecesOf h m e)[k]? = some t) (hp : (cut m e)[k]? = some p) (hheight : t.height = 0) :
    p.height = 0 ∧ p.code (fun a => (h a).text) Op.name = [t.getParent] := by
  simp only [piecesOf, List.getElem?_map, hp, Option.map_some, Option.some.injEq] at ht
  subst ht
  have hzero : (p.map h).height = 0 := by
    rw [ExprTree.height_pieceHeap] at hheight
    exact_mod_cast hheight
  rw [height_piece] at hheight
  exact ⟨by exact_mod_cast hheight, by rw [← code_piece, ExprTree.code_of_height_zero hzero]⟩

theorem dispatches_piecesOf {e : Expr α Op} (hheight : Expr.height e ≤ 30) {max_h : Nat}
    (hlt : max_h < Expr.height e) :
    ∃ st : ClientControllerSupervisor ι, Dispatches (tokensOf h e) max_h st ∧
      st.chunkedTree = piecesOf h (maxHeight max_h) e := by
  have hop : Expr.height (e.map h) = Expr.height e := Expr.height_map h e
  have hreg := ExprTree.regenerate_tokens (e.map h) (by rw [hop]; exact hheight)
  have hchunk := ExprTree.chunk_heap (m := maxHeight max_h) (e := e.map h) (by rw [hop]; exact hheight)
  rw [ExprTree.OpExpr.tokens, Expr.code_map] at hreg
  rw [← toInt_maxHeight (by omega), map_pieceHeap] at hchunk
  obtain ⟨st, hst, hpieces⟩ := dispatchTree_of_chunk (ι := ι) hchunk
  refine ⟨st, ⟨_, hreg, ?_, hst⟩, hpieces⟩
  rw [ExprTree.height_heap_toTree, hop, toSizeT_natural hheight]
  exact hlt

theorem sendTasks_code {e : Expr α Op} (hheight : Expr.height e ≤ 30) (max_h : Nat) :
    (max_h < Expr.height e ∧ ∃ st0 : ClientControllerSupervisor ι,
      Dispatches (tokensOf h e) max_h st0 ∧ st0.chunkedTree = piecesOf h (maxHeight max_h) e) ∨
    (Expr.height e ≤ max_h ∧ ∃ st0 : ClientControllerSupervisor ι,
      sendTasks (tokensOf h e) max_h = .ok st0 ∧ Idle st0 ∧
        ∃ f, st0.finals = [f] ∧ countStack f.entries = .ok (tokensOf h e) ∧
          f.answer = Computer.compute (tokensOf h e)) := by
  rcases Nat.lt_or_ge max_h (Expr.height e) with hlt | hge
  · exact Or.inl ⟨hlt, dispatches_piecesOf hheight hlt⟩
  · have hop : Expr.height (e.map h) = Expr.height e := Expr.height_map h e
    have hreg := ExprTree.regenerate_tokens (e.map h) (by rw [hop]; exact hheight)
    have hstack := ExprTree.toStack_heap (e.map h)
    rw [ExprTree.OpExpr.tokens, Expr.code_map] at hreg hstack
    have hlow : toSizeT (ExprTree.heap (ExprTree.OpExpr.toTree (e.map h))).height ≤ max_h := by
      rw [ExprTree.height_heap_toTree, hop, toSizeT_natural hheight]
      exact hge
    have hlocal := sendTasks_local (ι := ι) hreg hlow
    rw [hstack] at hlocal
    exact Or.inr ⟨hge, hlocal⟩

theorem height_of_sendTasks {e : Expr α Op} {max_h : Nat} {st0 : ClientControllerSupervisor ι}
    (hsend : sendTasks (tokensOf h e) max_h = .ok st0) : Expr.height e ≤ 30 := by
  obtain ⟨tree, hreg, -⟩ := Except.bind_eq_ok.mp hsend
  have hcode : ExprTree.OpExpr.tokens (e.map h) = tokensOf h e := Expr.code_map _ _ _ e
  have hheight := (ExprTree.regenerate_tokens_of_ok (hcode ▸ hreg)).2
  rwa [Expr.height_map] at hheight

/-! ## What the entries hold -/

/-- The result at `k`, if there is one, is as `R` says. -/
def Holds (R : Nat → String → Prop) (entries : List (ThreadResult ι)) : Prop :=
  ∀ (k : Nat) (r : ThreadResult ι) s, entries[k]? = some r → r.result = some s → R k s

structure ValuesInv (R : Nat → String → Prop) (st : ClientControllerSupervisor ι) : Prop where
  entries : Holds R st.resultStack
  finals : ∀ f ∈ st.finals, Holds R f.entries ∧ f.answer = countStack f.entries >>= Computer.compute

theorem Fresh.valuesInv {st : ClientControllerSupervisor ι} (hfresh : Fresh st)
    (R : Nat → String → Prop) : ValuesInv R st :=
  ⟨fun k r s hr => by simp [hfresh.resultStack] at hr, by simp [hfresh.record.1]⟩

variable {R : Nat → String → Prop}

theorem Holds.push {entries : List (ThreadResult ι)} (hold : Holds R entries) {r : ThreadResult ι}
    (hr : ∀ s, r.result = some s → R entries.length s) : Holds R (entries ++ [r]) := by
  intro k r' s hk hs
  rcases Nat.lt_trichotomy k entries.length with hlt | rfl | hgt
  · rw [List.getElem?_append_left hlt] at hk
    exact hold k r' s hk hs
  · obtain rfl : r = r' := by simpa using hk
    exact hr s hs
  · rw [List.getElem?_eq_none (by simp; omega)] at hk
    cases hk

theorem Holds.set {entries : List (ThreadResult ι)} (hold : Holds R entries) {idx : Nat} {c : ι}
    {s : String} (hs : R idx s) : Holds R (entries.set idx ⟨some c, some s⟩) := by
  intro k r s' hk hs'
  by_cases hidx : idx = k
  · subst hidx
    rw [List.getElem?_set] at hk
    split at hk
    · split at hk
      · obtain rfl := Option.some.inj hk
        obtain rfl := Option.some.inj hs'
        exact hs
      · cases hk
    · contradiction
  · rw [List.getElem?_set_ne hidx] at hk
    exact hold k r s' hk hs'

theorem countStack_of_holds {entries : List (ThreadResult ι)} (hold : Holds R entries)
    (hall : ∀ r ∈ entries, r.result.isSome = true) :
    ∃ ss, countStack entries = .ok ss ∧ ss.length = entries.length ∧
      ∀ (k : Nat) s, ss[k]? = some s → R k s := by
  have hsome : ∀ r ∈ entries, r.result = some (r.result.getD "") := fun r hr => by
    obtain ⟨s, hs⟩ := Option.isSome_iff_exists.mp (hall r hr)
    rw [hs, Option.getD_some]
  refine ⟨entries.map fun r => r.result.getD "", countStack_of_results ?_, by simp, fun k s hs => ?_⟩
  · rw [List.map_map]
    exact List.map_congr_left hsome
  · rw [List.getElem?_map, Option.map_eq_some_iff] at hs
    obtain ⟨r, hr, rfl⟩ := hs
    exact hold k r _ hr (hsome r (List.mem_of_getElem? hr))

variable [DecidableEq ι] [ToString ι]

omit [ToString ι] in
theorem valuesInv_statement {st st' : ClientControllerSupervisor ι} (hinv : Inv st)
    (hold : ValuesInv R st)
    (hcopied : ∀ (k : Nat) t, st.chunkedTree[k]? = some t → t.height = 0 → R k t.getParent)
    (hstep : st.statement = some st') : ValuesInv R st' := by
  have hlen := hinv.length
  rcases statement_cases hstep with ⟨t, hpoint, ht, hheight⟩ | _ | _ | _ | _
  · refine ⟨hold.entries.push fun s hs => ?_, hold.finals⟩
    rw [hlen, hpoint, ← Option.some.inj hs]
    exact hcopied _ t ht hheight
  · exact ⟨hold.entries, hold.finals⟩
  · exact ⟨hold.entries.push fun s hs => by simp at hs, hold.finals⟩
  · exact ⟨hold.entries, hold.finals⟩
  · exact ⟨hold.entries, hold.finals⟩

theorem valuesInv_result {st st' : ClientControllerSupervisor ι} {c : ι}
    {value : { i : Int // InInt i }} {idx : Nat} (hinv : Inv st) (hold : ValuesInv R st)
    (hdelivered : ∀ task t, st.tasks c = some task → st.chunkedTree[task.chunk]? = some t →
      t.height ≠ 0 → task.expr = t.toStack 1 → R task.chunk (toString value.1))
    (hstep : st.step (.result c value idx) = some st') : ValuesInv R st' := by
  obtain ⟨hends, hdelivery, -⟩ := result_cases hstep
  rcases hdelivery with ⟨-, hres, hfinals, -⟩ | ⟨r, -, -, hres, hfinals, -⟩ |
    ⟨r, hr, hid, hres, hfinals, -⟩
  · exact ⟨by rw [hres]; exact hold.entries, by rw [hfinals]; exact hold.finals⟩
  · exact ⟨by rw [hres]; exact hold.entries, by rw [hfinals]; exact hold.finals⟩
  -- The entry is that of the task's own element.
  obtain ⟨task, htask, -⟩ := hends.running
  obtain rfl := hinv.entry_unique htask ⟨r, hr, hid⟩
  obtain ⟨t, ht, htaskOf⟩ := hinv.task c task htask
  have hentries : Holds R st'.resultStack := by
    rw [hres]
    exact hold.entries.set (hdelivered task t htask ht htaskOf.height htaskOf.expr)
  refine ⟨hentries, ?_⟩
  rw [hfinals]
  split
  · intro f hf
    rcases List.mem_append.mp hf with hf | hf
    · exact hold.finals f hf
    · rw [List.mem_singleton] at hf
      subst hf
      exact ⟨hentries, rfl⟩
  · exact hold.finals

theorem valuesInv_step {st st' : ClientControllerSupervisor ι} {ev : Event ι} (hinv : Inv st)
    (hold : ValuesInv R st)
    (hcopied : ∀ (k : Nat) t, st.chunkedTree[k]? = some t → t.height = 0 → R k t.getParent)
    (hdelivered : ∀ c value idx task t, ev = .result c value idx → st.tasks c = some task →
      st.chunkedTree[task.chunk]? = some t → t.height ≠ 0 → task.expr = t.toStack 1 →
      R task.chunk (toString value.1))
    (hstep : st.step ev = some st') : ValuesInv R st' := by
  rcases ev with c | _ | ⟨c, value, idx⟩ | c | c
  · obtain ⟨t, -, -, -, -, rfl⟩ := createThread_cases hstep
    exact ⟨hold.entries, hold.finals⟩
  · exact valuesInv_statement hinv hold hcopied hstep
  · exact valuesInv_result hinv hold (fun task t => hdelivered c value idx task t rfl) hstep
  · obtain ⟨-, hres, hfinals, -⟩ := networkError_cases hstep
    exact ⟨by rw [hres]; exact hold.entries, by rw [hfinals]; exact hold.finals⟩
  · obtain ⟨-, hres, hfinals, -⟩ := otherError_cases hstep
    exact ⟨by rw [hres]; exact hold.entries, by rw [hfinals]; exact hold.finals⟩

theorem Idle.stays {ok : ClientControllerSupervisor ι → Event ι → Prop}
    {st0 st : ClientControllerSupervisor ι} (hidle : Idle st0) (hrun : Reaches step ok st0 st) :
    st = st0 := by
  refine hrun.invariant (I := fun t => t = st0) rfl fun s s' ev ih _ hstep => ?_
  subst ih
  rcases ends_of_step hstep with ⟨c, -, hc⟩ | ⟨-, hs⟩ | ⟨c, ending, hends, -⟩
  · obtain ⟨t, -, ht, -⟩ := createThread_cases hc
    simp [hidle.chunkedTree] at ht
  · rcases statement_cases hs with ⟨t, -, ht, -⟩ | ⟨c, hp⟩ | ⟨c, hp⟩ | ⟨c, hp⟩ | hp
    · simp [hidle.chunkedTree] at ht
    all_goals simp [hidle.point] at hp
  · obtain ⟨task, htask, -⟩ := hends.running
    simp [hidle.tasks] at htask

end DispCalc.ClientControllerSupervisor
