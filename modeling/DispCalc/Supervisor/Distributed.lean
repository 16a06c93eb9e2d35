import DispCalc.ServerMethods
import DispCalc.Supervisor.Pieces
import DispCalc.Supervisor.Progress

/-!
# Distributed evaluation

The supervisor of an expression reports what `Computer` computes on the whole of it, whether
it dispatches or not, wherever it cuts and in whatever order the results come.
-/

open Postfix Runs

namespace DispCalc

/-! ## Expressions as trees -/

def IntNumeral.toOperand (n : IntNumeral) : ExprTree.Operand := .ofNumeral n.text n.starts

namespace IntExpr

theorem tokens_ne_null (e : IntExpr) : ∀ x ∈ e.tokens, x ≠ ExprTree.null := by
  have h := ExprTree.tokens_ne_null (e.map IntNumeral.toOperand)
  rwa [ExprTree.OpExpr.tokens, Expr.code_map] at h

/-- The numeral that a task sends back for a piece. -/
def numeral (e : IntExpr) : IntNumeral :=
  match h : e.value with
  | .ok v => .ofInt v (value_inInt h)
  | .error _ => .ofInt 0 (by decide)

theorem numeral_of_value {e : IntExpr} {v : Int} (h : e.value = .ok v) :
    e.numeral.text = toString v ∧ e.numeral.value = v := by
  unfold numeral
  split
  · rename_i v' h'
    obtain rfl := Except.ok.inj (h'.symm.trans h)
    exact ⟨rfl, rfl⟩
  · rename_i f h'
    rw [h] at h'
    cases h'

theorem value_collapse {e : IntExpr} {v : Int} (h : e.value = .ok v) (m : Nat) :
    IntExpr.value (collapse m numeral e) = .ok v :=
  eval_collapse (fun e' v' he' => by rw [(numeral_of_value he').2]) m h

end IntExpr

namespace ClientControllerSupervisor

variable {ι : Type}

abbrev token (p : Piece IntNumeral Op) : String := p.token IntNumeral.text Op.name IntExpr.numeral

/-- Every result in the entries is the token of its piece. -/
def Right (ps : List (Piece IntNumeral Op)) (k : Nat) (s : String) : Prop :=
  ∀ p, ps[k]? = some p → s = token p

theorem countStack_of_right {ps : List (Piece IntNumeral Op)} {entries : List (ThreadResult ι)}
    (h : Holds (Right ps) entries) (hlen : entries.length = ps.length)
    (hall : ∀ r ∈ entries, r.result.isSome = true) : countStack entries = .ok (ps.map token) := by
  obtain ⟨ss, hcount, hss, hright⟩ := countStack_of_holds h hall
  rw [hcount]
  refine congrArg Except.ok (List.ext_getElem? fun k => ?_)
  rw [List.getElem?_map]
  rcases Nat.lt_or_ge k ps.length with hlt | hge
  · have hp := List.getElem?_eq_getElem hlt
    have hs := List.getElem?_eq_getElem (by omega : k < ss.length)
    rw [hs, hp, hright k _ hs _ hp]
    rfl
  · rw [List.getElem?_eq_none (by omega), List.getElem?_eq_none hge]
    rfl

/-! ## What the server answers for a piece -/

theorem token_of_node {e : IntExpr} (hheight : 1 ≤ Expr.height e) {v : Int} (hv : e.value = .ok v) :
    token (.part e) = toString v := by
  rcases e with n | ⟨o, l, r⟩
  · simp at hheight
  · exact (IntExpr.numeral_of_value hv).1

theorem token_of_copied {m k : Nat} {e : IntExpr} {t : ExprTree}
    (ht : (piecesOf IntNumeral.toOperand m e)[k]? = some t) (hheight : t.height = 0) :
    Right (cut m e) k t.getParent := by
  intro p hp
  obtain ⟨hzero, hcode⟩ := code_of_copied ht hp hheight
  have htoken : p.code IntNumeral.text Op.name = [token p] := Piece.code_of_height_zero hzero
  exact (List.singleton_inj.mp (htoken.symm.trans hcode)).symm

variable [DecidableEq ι] [ToString ι]

/-! ## What the tasks deliver -/

theorem aborts_le {st st' : ClientControllerSupervisor ι} {ev : Event ι} (hstep : st.step ev = some st') :
    st.aborts ≤ st'.aborts := by
  rcases ev with c | _ | ⟨c, value, idx⟩ | c | c
  · obtain ⟨t, -, -, -, -, rfl⟩ := createThread_cases hstep
    exact Nat.le_refl _
  · rcases statement_cases hstep with _ | _ | _ | _ | _ <;> exact Nat.le_refl _
  · obtain ⟨-, -, -, hsame, -⟩ := result_cases hstep
    exact hsame.ge
  · obtain ⟨-, -, -, -, -, hsucc⟩ := networkError_cases hstep
    omega
  · obtain ⟨-, -, -, -, -, hsame⟩ := otherError_cases hstep
    exact hsame.ge

theorem not_deleted_of_reaches {ok : ClientControllerSupervisor ι → Event ι → Prop}
    {st0 st : ClientControllerSupervisor ι} (hfresh : Fresh st0) (hrun : Reaches step ok st0 st)
    (haborts : st.aborts = 0) {c : ι} {task : ClientControllerTask} (htask : st.tasks c = some task) :
    task.deleted = false := by
  refine hrun.invariant
    (I := fun st => st.aborts = 0 → ∀ c task, st.tasks c = some task → task.deleted = false)
    (fun _ c task htask => by simp [hfresh.tasks] at htask) (fun s s' ev ih _ hstep => ?_) haborts c task htask
  intro haborts c task htask
  have hkept := ih (Nat.le_zero.mp (haborts ▸ aborts_le hstep))
  have hends : ∀ {d ending}, Ends s s' d ending → ending ≠ .networkError → task.deleted = false := by
    intro d ending hends hending
    obtain ⟨deleted, hdeleted, htasks⟩ := hends.tasks c
    rw [htasks] at htask
    obtain ⟨task', htask', rfl⟩ := Option.map_eq_some_iff.mp htask
    simp [hkept c task' htask', hdeleted hending]
  rcases ev with d | _ | ⟨d, value, idx⟩ | d | d
  · obtain ⟨t, -, -, -, -, rfl⟩ := createThread_cases hstep
    simp only [Function.update_apply] at htask
    split at htask
    · obtain rfl := Option.some.inj htask
      rfl
    · exact hkept c task htask
  · rcases statement_cases hstep with _ | _ | _ | ⟨d, -⟩ | _
    case setIdx =>
      simp only [setIdx, Function.update_apply] at htask
      split at htask
      · obtain ⟨task', htask', rfl⟩ := Option.map_eq_some_iff.mp htask
        exact hkept d task' htask'
      · exact hkept c task htask
    all_goals exact hkept c task htask
  · obtain ⟨h, -⟩ := result_cases hstep
    exact hends h (by simp)
  · obtain ⟨-, -, -, -, -, hsucc⟩ := networkError_cases hstep
    omega
  · obtain ⟨h, -⟩ := otherError_cases hstep
    exact hends h (by simp)

/-- A result comes in time, and is what the server computes for the task's list, if the task has its
object. -/
def answered (st : ClientControllerSupervisor ι) (ev : Event ι) : Prop :=
  inTime st ev = true ∧ ∀ c value idx task, ev = .result c value idx → st.tasks c = some task →
    task.deleted = false →
    ∃ table, (ServerMethodCompute.execute task.expr (toString c) table).1 = .ok value.1

/-- The tasks end after the loop, each with the value the server computes for its list. -/
abbrev orderly : ClientControllerSupervisor ι → Event ι → Prop :=
  calm fun c task value =>
    ∃ table, (ServerMethodCompute.execute task.expr (toString c) table).1 = .ok value.1

omit [DecidableEq ι] in
theorem answered_of_orderly (st : ClientControllerSupervisor ι) (ev : Event ι) (hinv : Inv st)
    (h : orderly st ev) : answered st ev := by
  refine ⟨?_, fun c value idx task hev htask _ => ?_⟩
  · rcases ev with c | _ | ⟨c, value, idx⟩ | c | c
    case result => simp [inTime, hinv.length_of_finished h.1]
    all_goals rfl
  · subst hev
    obtain ⟨-, task', htask', hanswer⟩ := h
    obtain rfl := Option.some.inj (htask.symm.trans htask')
    exact hanswer

theorem valuesInv_answered {m : Nat} {e : IntExpr} {v : Int} (hv : e.value = .ok v)
    {st st' : ClientControllerSupervisor ι} {ev : Event ι} (hinv : Inv st)
    (hkept : ∀ c task, st.tasks c = some task → task.deleted = false)
    (hpieces : st.chunkedTree = piecesOf IntNumeral.toOperand m e)
    (h : ValuesInv (Right (cut m e)) st) (hok : answered st ev) (hstep : st.step ev = some st') :
    ValuesInv (Right (cut m e)) st' := by
  refine valuesInv_step hinv h (fun k t ht hheight => token_of_copied (hpieces ▸ ht) hheight)
    (fun c value idx task t hev htask ht hheight hexpr p hp => ?_) hstep
  -- The server has computed the value of the task's piece.
  obtain ⟨table, hanswer⟩ := hok.2 c value idx task hev htask (hkept c task htask)
  rw [hpieces] at ht
  obtain ⟨e', he', hpos, htokens⟩ := part_of_piecesOf ht hheight
  obtain rfl := Option.some.inj (he'.symm.trans hp)
  obtain ⟨v', hv'⟩ := eval_of_mem_cut hv (List.mem_of_getElem? he')
  rw [hexpr, htokens, show tokensOf IntNumeral.toOperand e' = IntExpr.tokens e' from rfl,
    ServerMethodCompute.execute_tokens hv'] at hanswer
  rw [token_of_node hpos hv', Except.ok.inj hanswer]

section Answered

variable {m : Nat} {e : IntExpr} {v : Int} (hv : e.value = .ok v)
  {st0 st : ClientControllerSupervisor ι} (hfresh : Fresh st0)
  (hpieces : st0.chunkedTree = piecesOf IntNumeral.toOperand m e) (hrun : Reaches step answered st0 st)
include hv hfresh hpieces hrun

theorem valuesInv_of_reaches (haborts : st.aborts = 0) : ValuesInv (Right (cut m e)) st := by
  refine hrun.invariant_of (I := fun t => Reaches step answered st0 t)
    (J := fun t => t.aborts = 0 → ValuesInv (Right (cut m e)) t) (fun t ht => ht)
    (fun _ => hfresh.valuesInv _) (fun s s' ev hs _ hval hok hstep haborts => ?_) haborts
  have hbefore : s.aborts = 0 := Nat.le_zero.mp (haborts ▸ aborts_le hstep)
  exact valuesInv_answered hv (inv_of_reaches hfresh hs)
    (fun c task htask => not_deleted_of_reaches hfresh hs hbefore htask)
    ((chunkedTree_of_reaches hs).trans hpieces) (hval hbefore) hok hstep

omit hv hpieces in
theorem finalsInv_of_answered : FinalsInv st := finalsInv_of_reaches hfresh (fun _ _ _ h => h.1) hrun

omit hv hpieces in
theorem results_of_final (hne : st.finals ≠ []) {c : ι} {task : ClientControllerTask}
    (htask : st.tasks c = some task) : task.ending = some .result := by
  have hinv := inv_of_reaches hfresh hrun
  have hfinals := finalsInv_of_answered hfresh hrun
  by_contra hending
  exact hne (hfinals.no_finals hinv htask (hinv.hasEntry_of_length (hfinals.after hne).1 htask) hending)

omit hv hpieces in
theorem aborts_of_final (hne : st.finals ≠ []) : st.aborts = 0 := by
  by_contra haborts
  obtain ⟨c, hc⟩ := (aborts_iff hfresh hrun).mp (Nat.pos_of_ne_zero haborts)
  obtain ⟨task, htask, hending⟩ := endingOf_some.mp hc
  rw [results_of_final hfresh hrun hne htask] at hending
  cases hending

theorem answer_of_final {f : Final ι} (hf : f ∈ st.finals) : f.answer = .ok (toString v) := by
  have hvalues := valuesInv_of_reaches hv hfresh hpieces hrun
    (aborts_of_final hfresh hrun (List.ne_nil_of_mem hf))
  obtain ⟨hlen, hall⟩ := (finalsInv_of_answered hfresh hrun).complete f hf
  obtain ⟨hright, hanswer⟩ := hvalues.finals f hf
  rw [chunkedTree_of_reaches hrun, hpieces, piecesOf, List.length_map] at hlen
  rw [hanswer, countStack_of_right hright hlen hall]
  have hcode : (cut m e).map token = IntExpr.tokens (collapse m IntExpr.numeral e) :=
    (code_collapse _ _ _ m e).symm
  rw [hcode]
  exact Computer.compute_tokens (IntExpr.value_collapse hv m)

end Answered

theorem exists_answer {m : Nat} {e : IntExpr} {v : Int} (hv : e.value = .ok v)
    {ok : ClientControllerSupervisor ι → Event ι → Prop} {st0 st : ClientControllerSupervisor ι}
    (hfresh : Fresh st0) (hpieces : st0.chunkedTree = piecesOf IntNumeral.toOperand m e)
    (hrun : Reaches step ok st0 st) {c : ι} {task : ClientControllerTask} (htask : st.tasks c = some task) :
    ∃ u : { i : Int // InInt i }, ServerMethodCompute.answer task.expr = .ok u.1 := by
  obtain ⟨t, ht, htaskOf⟩ := (inv_of_reaches hfresh hrun).task c task htask
  rw [chunkedTree_of_reaches hrun, hpieces] at ht
  obtain ⟨e', he', -, htokens⟩ := part_of_piecesOf ht htaskOf.height
  obtain ⟨v', hv'⟩ := eval_of_mem_cut hv (List.mem_of_getElem? he')
  refine ⟨⟨v', IntExpr.value_inInt hv'⟩, ?_⟩
  rw [← ServerMethodCompute.execute_fst _ (toString c) fun _ => none, htaskOf.expr, htokens]
  exact ServerMethodCompute.execute_tokens hv' _ _

theorem run_completes [Infinite ι] {m : Nat} {e : IntExpr} {v : Int} (hv : e.value = .ok v)
    {st0 st : ClientControllerSupervisor ι} (hfresh : Fresh st0)
    (hpieces : st0.chunkedTree = piecesOf IntNumeral.toOperand m e)
    (hrun : Reaches step orderly st0 st) :
    ∃ st', Reaches step orderly st st' ∧ st'.finished = true ∧ st'.allEnded := by
  refine completes hfresh (fun s hs c task htask => ?_) hrun
  obtain ⟨u, hanswer⟩ := exists_answer hv hfresh hpieces hs htask
  exact ⟨u, fun _ => none, (ServerMethodCompute.execute_fst _ _ _).trans hanswer⟩

/-! ## What is reported -/

/-- The text of every answer has been posted. -/
def Reported (st : ClientControllerSupervisor ι) : Prop :=
  ∀ f ∈ st.finals, ∀ res, f.answer = .ok res →
    "\n@ Supervisor::Ostateczny wynik(int): " ++ res ++ "\n" ∈ st.messages

omit [DecidableEq ι] [ToString ι] in
theorem Reported.more {st st' : ClientControllerSupervisor ι} (h : Reported st)
    (hfinals : st'.finals = st.finals) (hmessages : st.messages ⊆ st'.messages) : Reported st' :=
  fun f hf res hres => hmessages (h f (hfinals ▸ hf) res hres)

omit [DecidableEq ι] [ToString ι] in
theorem Reported.finalComputation {st : ClientControllerSupervisor ι} (h : Reported st) :
    Reported st.finalComputation := by
  intro f hf res hres
  simp only [ClientControllerSupervisor.finalComputation, List.append_assoc] at hf ⊢
  rcases List.mem_append.mp hf with hf | hf
  · exact List.mem_append_left _ (h f hf res hres)
  · obtain rfl := List.mem_singleton.mp hf
    simp only at hres
    simp [hres]

omit [ToString ι] in
theorem Reported.notify {st : ClientControllerSupervisor ι} (h : Reported st) (result : String) (c : ι)
    (idx : Nat) : Reported (st.notify result c idx) := by
  unfold ClientControllerSupervisor.notify
  split
  · exact h
  · split
    · exact h.more rfl (List.subset_append_left _ _)
    · dsimp only
      split
      · exact Reported.finalComputation h
      · exact Reported.more h rfl (List.subset_append_left _ _)

theorem reported_step {st st' : ClientControllerSupervisor ι} {ev : Event ι} (h : Reported st)
    (hstep : st.step ev = some st') : Reported st' := by
  rcases ev with c | _ | ⟨c, value, idx⟩ | c | c
  · obtain ⟨t, -, -, -, -, rfl⟩ := createThread_cases hstep
    exact h
  · rcases statement_cases hstep with _ | _ | _ | _ | _ <;> exact h
  · simp only [step] at hstep
    split at hstep
    · obtain rfl := Option.some.inj hstep
      have hposted : Reported ((st.finish c .result).postMessage
          ("Thread(" ++ toString c ++ "): wynik " ++ toString value.1)) :=
        h.more rfl (List.subset_append_left _ _)
      exact hposted.notify _ c idx
    · cases hstep
  all_goals
    simp only [step] at hstep
    split at hstep
    · obtain rfl := Option.some.inj hstep
      exact h.more rfl (List.subset_append_left _ _)
    · cases hstep

omit [DecidableEq ι] [ToString ι] in
theorem reported_of_sendTasks {s : List String} {max_h : Nat} {st0 : ClientControllerSupervisor ι}
    (hsend : sendTasks s max_h = .ok st0) : Reported st0 := by
  obtain ⟨tree, -, hrun⟩ := Except.bind_eq_ok.mp hsend
  unfold run at hrun
  split at hrun
  · obtain rfl := Except.ok.inj hrun
    exact Reported.finalComputation fun f hf => by cases hf
  · intro f hf
    rw [(dispatchTree_ok hrun).2.record.1] at hf
    cases hf

theorem reported_of_reaches {ok : ClientControllerSupervisor ι → Event ι → Prop} {s : List String} {max_h : Nat}
    {st0 st : ClientControllerSupervisor ι} (hsend : sendTasks s max_h = .ok st0)
    (hrun : Reaches step ok st0 st) : Reported st :=
  hrun.invariant (reported_of_sendTasks hsend) fun _ _ _ h _ hstep => reported_step h hstep

/-! ## Both branches of `run` -/

section Branches

variable {e : IntExpr} {max_h : Nat} {st0 st : ClientControllerSupervisor ι}
  (hsend : sendTasks e.tokens max_h = .ok st0)
include hsend

theorem finals_of_answered {v : Int} (hv : e.value = .ok v) (hrun : Reaches step answered st0 st) :
    (∀ f ∈ st.finals, f.answer = Computer.compute e.tokens) ∧ st.finals.length ≤ 1 ∧
      (st.finals ≠ [] → ∀ c task, st.tasks c = some task → task.ending = some .result) := by
  rcases sendTasks_code (ι := ι) (h := IntNumeral.toOperand)
    (height_of_sendTasks (h := IntNumeral.toOperand) hsend) max_h with
    ⟨-, st1, hd, hpieces⟩ | ⟨-, st1, hlocal, hidle, f, hf, -, hanswer⟩
  · obtain rfl := Except.ok.inj (hsend.symm.trans (sendTasks_of_dispatches hd))
    refine ⟨fun f hf => ?_, (finalsInv_of_answered hd.fresh hrun).once,
      fun hne c task htask => results_of_final hd.fresh hrun hne htask⟩
    rw [Computer.compute_tokens hv, answer_of_final hv hd.fresh hpieces hrun hf]
  · obtain rfl := Except.ok.inj (hsend.symm.trans hlocal)
    rw [hidle.stays hrun]
    refine ⟨fun f' hf' => ?_, by simp [hf], fun _ c task htask => ?_⟩
    · rw [hf, List.mem_singleton] at hf'
      subst hf'
      exact hanswer
    · simp [hidle.tasks] at htask

theorem finals_ne_nil {ok : ClientControllerSupervisor ι → Event ι → Prop}
    (hok : ∀ st ev, ok st ev → afterLoop st ev = true) (hrun : Reaches step ok st0 st) (hfin : st.finished = true)
    (hresults : ∀ c task, st.tasks c = some task → task.ending = some .result) : st.finals ≠ [] := by
  rcases sendTasks_code (ι := ι) (h := IntNumeral.toOperand)
    (height_of_sendTasks (h := IntNumeral.toOperand) hsend) max_h with
    ⟨-, st1, hd, -⟩ | ⟨-, st1, hlocal, hidle, f, hf, -, -⟩
  · obtain rfl := Except.ok.inj (hsend.symm.trans (sendTasks_of_dispatches hd))
    have hwork : HasWork st := by
      rw [HasWork, chunkedTree_of_reaches hrun]
      exact hd.hasWork e.tokens_ne_null
    obtain ⟨f, hf, -⟩ := final_of_results hd.fresh hok hrun hwork hfin hresults
    simp [hf]
  · obtain rfl := Except.ok.inj (hsend.symm.trans hlocal)
    rw [hidle.stays hrun, hf]
    simp

theorem answer_of_task {v : Int} (hv : e.value = .ok v) {ok : ClientControllerSupervisor ι → Event ι → Prop}
    (hrun : Reaches step ok st0 st) {c : ι} {task : ClientControllerTask} (htask : st.tasks c = some task) :
    Inv st ∧ ∃ u : { i : Int // InInt i }, ServerMethodCompute.answer task.expr = .ok u.1 := by
  rcases sendTasks_code (ι := ι) (h := IntNumeral.toOperand)
    (height_of_sendTasks (h := IntNumeral.toOperand) hsend) max_h with
    ⟨-, st1, hd, hpieces⟩ | ⟨-, st1, hlocal, hidle, -⟩
  · obtain rfl := Except.ok.inj (hsend.symm.trans (sendTasks_of_dispatches hd))
    exact ⟨inv_of_reaches hd.fresh hrun, exists_answer hv hd.fresh hpieces hrun htask⟩
  · obtain rfl := Except.ok.inj (hsend.symm.trans hlocal)
    rw [hidle.stays hrun, hidle.tasks] at htask
    cases htask

end Branches

/-- The supervisor of an expression reports what `compute` returns on the whole of it: for any
maximal height, and in whatever order the tasks end. Every run can be brought to its end. -/
theorem distributed_eq_local {e : IntExpr} (hheight : Expr.height e ≤ 30) {v : Int}
    (hv : e.value = .ok v) (maxHeight : Int) :
    ∃ st0 : ClientControllerSupervisor ι, sendTasks e.tokens (toSizeT maxHeight) = .ok st0 ∧
      (Dispatches e.tokens (toSizeT maxHeight) st0 → HasWork st0) ∧
      ∀ st, Reaches step orderly st0 st →
        (st.finished = true → st.allEnded →
          ∃ r, Computer.compute e.tokens = .ok r ∧ st.finals.map Final.answer = [.ok r] ∧
            "\n@ Supervisor::Ostateczny wynik(int): " ++ r ++ "\n" ∈ st.messages) ∧
        (Dispatches e.tokens (toSizeT maxHeight) st0 → st.finished = true →
          ∃ c task, st.tasks c = some task) ∧
        (Infinite ι → ∃ st', Reaches step orderly st st' ∧ st'.finished = true ∧ st'.allEnded) := by
  have hcompute := Computer.compute_tokens hv
  rcases sendTasks_code (ι := ι) (h := IntNumeral.toOperand) hheight (toSizeT maxHeight) with
    ⟨-, st0, hd, hpieces⟩ | ⟨-, st0, hsend, hidle, f, hf, -, hanswer⟩
  · have hsend := sendTasks_of_dispatches hd
    have hwork := hd.hasWork e.tokens_ne_null
    refine ⟨st0, hsend, fun _ => hwork, fun st hrun => ⟨fun hfin hended => ⟨_, hcompute, ?_⟩,
      fun _ hfin => (inv_of_reaches hd.fresh hrun).exists_task hfin ?_,
      fun _ => run_completes hv hd.fresh hpieces hrun⟩⟩
    · obtain ⟨hanswers, honce, -⟩ := finals_of_answered hsend hv
        (hrun.weaken_of (fun _ ht => inv_of_reaches hd.fresh ht) answered_of_orderly)
      have hne := finals_ne_nil hsend afterLoop_of_calm hrun hfin
        fun _ _ htask => results_of_calm hd.fresh hrun hended htask
      obtain ⟨f, hf⟩ := List.length_eq_one_iff.mp (Nat.le_antisymm honce (List.length_pos_iff.mpr hne))
      have hanswer : f.answer = .ok (toString v) := (hanswers f (by simp [hf])).trans hcompute
      exact ⟨by rw [hf, List.map_singleton, hanswer],
        reported_of_reaches hsend hrun f (by simp [hf]) _ hanswer⟩
    · rw [HasWork, chunkedTree_of_reaches hrun]
      exact hwork
  · refine ⟨st0, hsend, fun hd => hd.hasWork e.tokens_ne_null, fun st hrun => ?_⟩
    -- Nothing can happen after the final computation.
    rw [hidle.stays hrun]
    have hvalue : f.answer = .ok (toString v) := hanswer.trans hcompute
    refine ⟨fun _ _ => ⟨_, hcompute, ?_, reported_of_sendTasks hsend f (by simp [hf]) _ hvalue⟩,
      fun hd hfin => hd.fresh.inv.exists_task hfin (hd.hasWork e.tokens_ne_null),
      fun _ => ⟨st0, Reaches.refl st0, hidle.finished, hidle.allEnded⟩⟩
    rw [hf, List.map_singleton, hvalue]

theorem distributed_eq_local_of_product :
    ∃ st0 : ClientControllerSupervisor Nat,
      sendTasks ["1", "2", "ADD", "3", "4", "ADD", "MULTIPLY"] (toSizeT 1) = .ok st0 ∧
      (Dispatches ["1", "2", "ADD", "3", "4", "ADD", "MULTIPLY"] (toSizeT 1) st0 → HasWork st0) ∧
      ∀ st, Reaches step orderly st0 st →
        (st.finished = true → st.allEnded →
          ∃ r, Computer.compute ["1", "2", "ADD", "3", "4", "ADD", "MULTIPLY"] = .ok r ∧
            st.finals.map Final.answer = [.ok r] ∧
            "\n@ Supervisor::Ostateczny wynik(int): " ++ r ++ "\n" ∈ st.messages) ∧
        (Dispatches ["1", "2", "ADD", "3", "4", "ADD", "MULTIPLY"] (toSizeT 1) st0 → st.finished = true →
          ∃ c task, st.tasks c = some task) ∧
        (Infinite Nat → ∃ st', Reaches step orderly st st' ∧ st'.finished = true ∧ st'.allEnded) :=
  distributed_eq_local (v := 21)
    (e := .node .multiply
      (.node .add (.leaf (.ofInt 1 (by decide))) (.leaf (.ofInt 2 (by decide))))
      (.node .add (.leaf (.ofInt 3 (by decide))) (.leaf (.ofInt 4 (by decide)))))
    (by decide) rfl 1

end ClientControllerSupervisor

end DispCalc
