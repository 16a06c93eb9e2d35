import DispCalc.Parser.Exact
import DispCalc.ServerMethods
import DispCalc.Supervisor.Completion
import DispCalc.Supervisor.Pieces

/-!
# The lists that reach an evaluator

A supervisor that is given the list of one expression asks the servers for expressions only,
and evaluates one in the end. So does one whose tree has a numeral at its root and is not cut.
-/

open Postfix Runs DispCalc.Parser

namespace DispCalc

/-- A postfix expression over numerals and the four operators. -/
def WellFormed (l : List String) : Prop := ∃ e : NumExpr, l = e.tokens

theorem wellFormed_numeral {s : String} {i : Int} (h : startsNumeral s = true)
    (hi : numeral? s = some i) : WellFormed [s] := ⟨.leaf ⟨s, i, h, hi⟩, rfl⟩

theorem WellFormed.weight {l : List String} (h : WellFormed l) : Postfix.weight isOp l = 1 := by
  obtain ⟨e, rfl⟩ := h
  exact weight_tokens e

/-! ## The server on an expression -/

theorem eval_error {e : NumExpr} {f : Fault}
    (h : e.eval (fun n => lexicalCast n.text) Op.apply = .error f) : f ≠ .emptyStack := by
  induction e generalizing f with
  | leaf n =>
    rw [lexicalCast_error h]
    decide
  | node o l r ihl ihr =>
    rcases Expr.eval_node_error h with hl | ⟨x, -, hr | ⟨y, -, happ⟩⟩
    · exact ihl hl
    · exact ihr hr
    · rcases Op.apply_error happ with rfl | rfl <;> decide

theorem WellFormed.execute_ne {l : List String} (h : WellFormed l) (identifier : String)
    (table : StatusTable) (i : Nat) :
    (ServerMethodCompute.execute l identifier table).1 ≠ .error (i, .emptyStack) := by
  obtain ⟨e, rfl⟩ := h
  have hexec := ServerMethodCompute.execute_code Numeral.starts (fun _ => rfl) e identifier table
  rcases he : e.eval (fun n => lexicalCast n.text) Op.apply with f | v
  · rw [he] at hexec
    obtain ⟨j, hj⟩ := hexec
    rw [NumExpr.tokens, hj]
    intro heq
    exact eval_error he (congrArg Prod.snd (Except.error.inj heq))
  · rw [he] at hexec
    rw [NumExpr.tokens, hexec]
    intro heq
    cases heq

namespace ClientControllerSupervisor

variable {ι : Type}

/-! ## Tasks and final computations -/

/-- What a task was given and what `finalComputation` evaluates. -/
structure Lists (st : ClientControllerSupervisor ι) : Prop where
  tasks : ∀ c task, st.tasks c = some task → WellFormed task.expr
  finals : ∀ f ∈ st.finals, ∀ l, countStack f.entries = .ok l → WellFormed l

/-- A result for an element of `chunkedTree`: its token, or an `int` from a task. -/
def ResultOf (s : String) (t : ExprTree) : Prop :=
  (t.height = 0 ∧ s = t.getParent) ∨ (t.height ≠ 0 ∧ ∃ i, InInt i ∧ s = toString i)

variable [DecidableEq ι] [ToString ι]

theorem final_of_fresh {st0 st : ClientControllerSupervisor ι} (hfresh : Fresh st0)
    (hrun : Reaches step (fun st e => inTime st e = true) st0 st) {f : Final ι} (hf : f ∈ st.finals) :
    ∃ ss, countStack f.entries = .ok ss ∧ List.Forall₂ ResultOf ss st0.chunkedTree := by
  have hvalues : ValuesInv (fun k s => ∀ t, st0.chunkedTree[k]? = some t → ResultOf s t) st := by
    refine hrun.invariant_of (I := fun t => Inv t ∧ t.chunkedTree = st0.chunkedTree)
      (fun t ht => ⟨inv_of_reaches hfresh ht, chunkedTree_of_reaches ht⟩) (hfresh.valuesInv _)
      fun s s' ev hs _ hval _ hstep => ?_
    refine valuesInv_step hs.1 hval (fun k t ht hheight t' ht' => ?_)
      (fun c value idx task t _ _ ht hheight _ t' ht' => ?_) hstep
    · rw [hs.2, ht'] at ht
      obtain rfl := Option.some.inj ht
      exact Or.inl ⟨hheight, rfl⟩
    · rw [hs.2, ht'] at ht
      obtain rfl := Option.some.inj ht
      exact Or.inr ⟨hheight, value.1, value.2, rfl⟩
  obtain ⟨hlen, hall⟩ :=
    (finalsInv_of_reaches hfresh (fun _ _ _ hok => hok) hrun).complete f hf
  obtain ⟨ss, hss, hsslen, hres⟩ := countStack_of_holds (hvalues.finals f hf).1 hall
  refine ⟨ss, hss, List.forall₂_iff_get.mpr
    ⟨by rw [hsslen, hlen, chunkedTree_of_reaches hrun], fun k hk hk' => ?_⟩⟩
  exact hres k _ (List.getElem?_eq_getElem hk) _ (List.getElem?_eq_getElem hk')

theorem lists_of_fresh {st0 st : ClientControllerSupervisor ι} (hfresh : Fresh st0)
    (htask : ∀ t ∈ st0.chunkedTree, t.height ≠ 0 → WellFormed (t.toStack 1))
    (hfinal : ∀ ss, List.Forall₂ ResultOf ss st0.chunkedTree → WellFormed ss)
    (hrun : Reaches step (fun st e => inTime st e = true) st0 st) : Lists st := by
  refine ⟨fun c task hc => ?_, fun f hf l hl => ?_⟩
  · obtain ⟨t, ht, htaskOf⟩ := (inv_of_reaches hfresh hrun).task c task hc
    rw [chunkedTree_of_reaches hrun] at ht
    rw [htaskOf.expr]
    exact htask t (List.mem_of_getElem? ht) htaskOf.height
  · obtain ⟨ss, hss, hres⟩ := final_of_fresh hfresh hrun hf
    obtain rfl := Except.ok.inj (hl.symm.trans hss)
    exact hfinal l hres

omit [DecidableEq ι] [ToString ι] in
theorem lists_of_idle {st : ClientControllerSupervisor ι} (hidle : Idle st) {f : Final ι}
    (hf : st.finals = [f]) {l : List String} (hl : countStack f.entries = .ok l) (h : WellFormed l) :
    Lists st := by
  refine ⟨fun c task hc => by simp [hidle.tasks] at hc, fun f' hf' l' hl' => ?_⟩
  rw [hf, List.mem_singleton] at hf'
  subst hf'
  obtain rfl := Except.ok.inj (hl.symm.trans hl')
  exact h

/-! ## One expression -/

def toOperand (n : Numeral) : ExprTree.Operand := .ofNumeral n.text n.starts

theorem tokens_toOperand (e : NumExpr) : ExprTree.OpExpr.tokens (e.map toOperand) = e.tokens :=
  Expr.code_map _ _ _ e

theorem written_toOperand (ts : List NumExpr) :
    codes ExprTree.Operand.text Op.name (ts.map (Expr.map toOperand)) = written ts := by
  induction ts with
  | nil => rfl
  | cons e ts ih =>
    rw [List.map_cons, codes_cons, ih, written_cons]
    exact congrArg (· ++ written ts) (tokens_toOperand e)

theorem numeral_of_resultOf {s : String} {e : NumExpr}
    (h : ResultOf s (ExprTree.pieceHeap ((Piece.part e).map toOperand))) :
    ∃ n : Numeral, s = n.text := by
  rcases h with ⟨hheight, rfl⟩ | ⟨-, i, -, rfl⟩
  · rw [height_piece] at hheight
    rcases e with n | ⟨o, l, r⟩
    · exact ⟨n, rfl⟩
    · simp only [Piece.height, Expr.height_node] at hheight
      omega
  · exact ⟨.ofInt i, rfl⟩

theorem name_of_resultOf {s : String} {o : Op}
    (h : ResultOf s (ExprTree.pieceHeap ((Piece.oper o : Piece Numeral Op).map toOperand))) :
    s = o.name := by
  rcases h with ⟨-, rfl⟩ | ⟨hheight, -⟩
  · rfl
  · rw [height_piece] at hheight
    exact absurd rfl hheight

theorem wellFormed_of_pieces {m : Nat} {e : NumExpr} {ss : List String}
    (h : List.Forall₂ ResultOf ss (piecesOf toOperand m e)) : WellFormed ss := by
  rw [piecesOf, List.forall₂_map_right_iff] at h
  exact exists_code_of_cut (fun s e h => numeral_of_resultOf h) (fun s o h => name_of_resultOf h) h

theorem lists_of_expr {e : NumExpr} {max_h : Nat} {st0 st : ClientControllerSupervisor ι}
    (hsend : sendTasks e.tokens max_h = .ok st0)
    (hrun : Reaches step (fun st e => inTime st e = true) st0 st) : Lists st := by
  have hheight : Expr.height e ≤ 30 := height_of_sendTasks (h := toOperand) hsend
  rcases sendTasks_code (ι := ι) (h := toOperand) hheight max_h with
    ⟨-, st1, hd, hpieces⟩ | ⟨-, st1, hsend1, hidle, f, hf, hcount, -⟩
  · obtain rfl := Except.ok.inj ((sendTasks_of_dispatches hd).symm.trans hsend)
    refine lists_of_fresh hd.fresh (fun t ht hne => ?_) (fun ss hss => ?_) hrun
    · rw [hpieces] at ht
      obtain ⟨k, hk⟩ := List.mem_iff_getElem?.mp ht
      obtain ⟨e', -, -, htokens⟩ := part_of_piecesOf hk hne
      exact ⟨e', htokens⟩
    · rw [hpieces] at hss
      exact wellFormed_of_pieces hss
  · obtain rfl := Except.ok.inj (hsend1.symm.trans hsend)
    rw [hidle.stays hrun]
    exact lists_of_idle hidle hf hcount ⟨e, rfl⟩

/-! ## A numeral at the root -/

theorem lists_of_root {s : List String} {tree : ExprTree} (htree : ExprTree.regenerate s = .ok tree)
    {i : Int} (hroot : startsNumeral (tree.get 1) = true) (hi : numeral? (tree.get 1) = some i)
    {height max_h : Nat} (hheight : tree.height = height) (hle : height ≤ 30)
    (hmax : height ≤ maxHeight max_h) {st0 st : ClientControllerSupervisor ι}
    (hsend : sendTasks s max_h = .ok st0)
    (hrun : Reaches step (fun st e => inTime st e = true) st0 st) : Lists st := by
  have hstack : tree.toStack 1 = [tree.get 1] :=
    ExprTree.toStack_of_not_isOp le_rfl (isOp_of_startsNumeral hroot)
  have hwf : WellFormed (tree.toStack 1) := by
    rw [hstack]
    exact wellFormed_numeral hroot hi
  rcases sendTasks_cases htree hsend with ⟨hlt, hd, hchunk⟩ | ⟨-, hidle, f, hf, hcount⟩
  · rw [hheight, toSizeT_natural hle] at hlt
    rw [ExprTree.chunk, ExprTree.chunkFrom,
      if_pos (by rw [toInt_maxHeight (by omega), hheight]; exact_mod_cast hmax)] at hchunk
    have hchunks := Except.ok.inj hchunk
    refine lists_of_fresh hd.fresh (fun t ht _ => ?_) (fun ss hss => ?_) hrun
    · rw [← hchunks, List.mem_singleton] at ht
      exact ht ▸ hwf
    · rw [← hchunks] at hss
      obtain ⟨x, _, hx, hnil, rfl⟩ := List.forall₂_cons_right_iff.mp hss
      obtain rfl := List.forall₂_nil_right_iff.mp hnil
      rcases hx with ⟨-, rfl⟩ | ⟨-, j, -, rfl⟩
      · exact wellFormed_numeral hroot hi
      · exact wellFormed_numeral (startsNumeral_toString j) (numeral?_toString j)
  · rw [hidle.stays hrun]
    exact lists_of_idle hidle hf hcount hwf

end ClientControllerSupervisor

end DispCalc
