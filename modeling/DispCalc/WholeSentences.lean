import DispCalc.Commands
import DispCalc.Parser.Language
import DispCalc.Supervisor.Code

/-!
# Which expressions are computed

Both actions call `sendTasks` for every expression that the loop comes to, whatever `parse` says
about it.
-/

open Postfix Runs DispCalc.Parser

namespace DispCalc.ClientController

variable {w : World}

/-! ## The calls of one loop -/

/-- The calls of `sendTasks` in the loop, up to the parameter that stops it. -/
def loopCalls (max_h : Nat) : Nat → List String → List (Nat × Call)
  | _, [] => []
  | i, p :: params =>
    match parse p [] with
    | .error _ => []
    | .ok (st, _) =>
      (i, ⟨st, max_h⟩) ::
        match ExprTree.regenerate st with
        | .error _ => []
        | .ok _ => loopCalls max_h (i + 1) params

section Equations

variable {p : String} {st : List String} {m : Option (List Char)} {f : Fault} (max_h i : Nat)
  (params : List String)

theorem loopCalls_throws (h : parse p [] = .error f) : loopCalls max_h i (p :: params) = [] := by
  simp only [loopCalls, h]

theorem loopCalls_stops (h : parse p [] = .ok (st, m)) (htree : ExprTree.regenerate st = .error f) :
    loopCalls max_h i (p :: params) = [(i, ⟨st, max_h⟩)] := by
  simp only [loopCalls, h, htree]

theorem loopCalls_starts (h : parse p [] = .ok (st, m)) {tree : ExprTree}
    (htree : ExprTree.regenerate st = .ok tree) :
    loopCalls max_h i (p :: params) = (i, ⟨st, max_h⟩) :: loopCalls max_h (i + 1) params := by
  simp only [loopCalls, h, htree]

end Equations

theorem sent_computeEach {c : ClientController} (hc : c.expressionStack = []) (max_h i : Nat)
    (params : List String) :
    (computeEach w max_h i params c).state.sent = c.sent ++ loopCalls max_h i params := by
  induction params generalizing c i with
  | nil => simp [computeEach, loopCalls, pure, EStateM.pure]
  | cons p params ih =>
    cases hparse : parse p [] with
    | error f =>
      rw [computeEach_throws (hc ▸ hparse), loopCalls_throws _ _ _ hparse]
      simp
    | ok x =>
      obtain ⟨st, m⟩ := x
      cases htree : ExprTree.regenerate st with
      | error f =>
        rw [computeEach_stops (hc ▸ hparse) htree, loopCalls_stops _ _ _ hparse htree]
        rfl
      | ok tree =>
        rw [computeEach_starts (hc ▸ hparse) htree, ih rfl, loopCalls_starts _ _ _ hparse htree]
        exact List.append_assoc c.sent _ _

theorem exists_loopCall_iff (max_h i : Nat) {j : Nat} {params : List String} {s : String}
    (hs : params[j]? = some s) (hparse : ∃ x, parse s [] = .ok x) :
    (∃ k, (i + j, k) ∈ loopCalls max_h i params) ↔ ∀ p ∈ params.take j, Harmless p := by
  induction params generalizing i j with
  | nil => cases hs
  | cons p params ih =>
    cases j with
    | zero =>
      obtain rfl : p = s := by simpa using hs
      obtain ⟨⟨st, m⟩, hx⟩ := hparse
      simp [loopCalls, hx]
    | succ j =>
      have hrest : params[j]? = some s := by simpa using hs
      have hindex : i + 1 + j = i + (j + 1) := by omega
      rw [List.take_succ_cons, List.forall_mem_cons, harmless_iff]
      cases hp : parse p [] with
      | error f =>
        rw [loopCalls_throws _ _ _ hp]
        simp
      | ok x =>
        obtain ⟨st, m⟩ := x
        cases htree : ExprTree.regenerate st with
        | error f =>
          rw [loopCalls_stops _ _ _ hp htree]
          constructor
          · rintro ⟨k, hk⟩
            have := (Prod.mk.inj (List.mem_singleton.mp hk)).1
            omega
          · rintro ⟨⟨st', m', tree, hx, htree'⟩, -⟩
            obtain ⟨rfl, -⟩ := Prod.mk.inj (Except.ok.inj hx)
            rw [htree] at htree'
            cases htree'
        | ok tree =>
          rw [loopCalls_starts _ _ _ hp htree, ← ih (i + 1) hrest, hindex]
          constructor
          · rintro ⟨k, hk⟩
            rcases List.mem_cons.mp hk with heq | hk
            · have := (Prod.mk.inj heq).1
              omega
            · exact ⟨⟨st, m, tree, rfl, htree⟩, k, hk⟩
          · rintro ⟨-, k, hk⟩
            exact ⟨k, List.mem_cons_of_mem _ hk⟩

/-! ## Sentences -/

/-- The calls that get the lists one after the other, from the index `i` on. -/
def callsFor (max_h i : Nat) (lists : List (List String)) : List (Nat × Call) :=
  (lists.zipIdx i).map fun (s, j) => (j, ⟨s, max_h⟩)

/-- How many of the parse trees come before the first whose `ExprTree` has an index above `int`. -/
def built (asts : List Ast) : Nat := (asts.takeWhile fun a => a.depth ≤ 30).length

/-- The calls are those for the lists, up to the first whose tree cannot be built: the constructor
of its supervisor throws. All are made when this can only be the last one. -/
structure Sends (calls : List (Nat × Call)) (max_h i : Nat) (asts : List Ast)
    (lists : List (List String)) : Prop where
  made : calls = (callsFor max_h i lists).take (built asts + 1)
  all : (∀ a ∈ asts.dropLast, a.depth ≤ 30) → calls = callsFor max_h i lists

theorem callsFor_cons (max_h i : Nat) (s : List String) (lists : List (List String)) :
    callsFor max_h i (s :: lists) = (i, ⟨s, max_h⟩) :: callsFor max_h (i + 1) lists := by
  rw [callsFor, List.zipIdx_cons, List.map_cons, callsFor]

theorem built_cons (a : Ast) (asts : List Ast) :
    built (a :: asts) = if a.depth ≤ 30 then built asts + 1 else 0 := by
  unfold built
  by_cases ha : a.depth ≤ 30
  · simp [ha]
  · simp [ha]

theorem length_le_built {asts : List Ast} (h : ∀ a ∈ asts.dropLast, a.depth ≤ 30) :
    asts.length ≤ built asts + 1 := by
  rcases asts.eq_nil_or_concat with rfl | ⟨front, a, rfl⟩
  · simp
  · rw [List.concat_eq_append, List.dropLast_concat] at h
    rw [List.concat_eq_append, built, List.takeWhile_append_of_pos (by simpa using h)]
    simp only [List.length_append, List.length_singleton]
    omega

theorem loopCalls_sentences {params : List String} {asts : List Ast}
    (hsentences : List.Forall₂ Sentence params asts)
    (hactions : ∀ p ∈ params, ∀ f, parse p [] ≠ .error f) :
    ∃ lists, List.Forall₂ Denotes asts lists ∧
      ∀ max_h i, loopCalls max_h i params = (callsFor max_h i lists).take (built asts + 1) := by
  induction hsentences with
  | nil => exact ⟨[], .nil, fun _ _ => rfl⟩
  | @cons p a params asts hp _ ih =>
    obtain ⟨lists, hlists, hcalls⟩ := ih fun p hp => hactions p (List.mem_cons_of_mem _ hp)
    obtain ⟨ws, hparse⟩ := parse_sentence hp []
    rcases ha : a.fold with f | e
    · exact absurd (hparse.trans (reading_error ha [] ws)) (hactions p List.mem_cons_self f)
    · rw [reading_ok ha, List.nil_append] at hparse
      refine ⟨e.tokens :: lists, .cons (denotes_tokens ha) hlists, fun max_h i => ?_⟩
      rw [callsFor_cons, built_cons, List.take_succ_cons]
      cases htree : ExprTree.regenerate e.tokens with
      | error f =>
        have hdeep : ¬ a.depth ≤ 30 := by
          rw [← regenerate_fold_iff ha, htree]
          simp
        rw [loopCalls_stops _ _ _ hparse htree, if_neg hdeep, List.take_zero]
      | ok tree =>
        rw [loopCalls_starts _ _ _ hparse htree, hcalls,
          if_pos ((regenerate_fold_iff ha).mp ⟨tree, htree⟩)]

/-! ## The calls of a command -/

/-- The calls of `sendTasks` that an action makes, with the indices of their parameters. -/
def newCalls (w : World) (c : ClientController) (a : ControllerAction) (params : List String) :
    List (Nat × Call) :=
  (a.execute w params c).state.sent.drop c.sent.length

/-- Some run of the supervisor reports a final result. -/
def Reports (k : Call) : Prop :=
  ∃ (st0 st : ClientControllerSupervisor Nat) (f : Final Nat) (r : String),
    ClientControllerSupervisor.sendTasks k.s k.max_h = .ok st0 ∧
      Reaches ClientControllerSupervisor.step (fun _ _ => True) st0 st ∧ f ∈ st.finals ∧
      f.answer = .ok r

/-- A supervisor is started for the parameter with this index just when it is a sentence, and for
any other none is started and no final result is reported. -/
structure OnlySentences (w : World) (c : ClientController) (a : ControllerAction)
    (params : List String) (i : Nat) (s : String) : Prop where
  starts : (∃ k, (i, k) ∈ newCalls w c a params) ↔ ∃ t, Sentence s t
  silent : (¬ ∃ t, Sentence s t) → (∀ k, (i, k) ∉ newCalls w c a params) ∧
    ¬ ∃ k, (i, k) ∈ newCalls w c a params ∧ Reports k

/-- Nothing before the parameter with this index stops the action. -/
def Reached : ControllerAction → List String → Nat → Prop
  | .compute, params, i => ∀ p ∈ params.take i, Harmless p
  | .computemaxn, params, i =>
    (∃ n maxHeight, params.head? = some n ∧ lexicalCast n = .ok maxHeight) ∧
      ∀ p ∈ params.tail.take (i - 1), Harmless p
  | _, _, _ => False

/-- The parameters that are expressions. -/
def IsExpression : ControllerAction → Nat → Prop
  | .compute, _ => True
  | .computemaxn, i => 1 ≤ i
  | _, _ => False

theorem newCalls_compute {c : ClientController} (hc : c.expressionStack = []) (params : List String) :
    newCalls w c .compute params = loopCalls 2 0 params := by
  rw [newCalls, ControllerAction.execute, ComputeAction.execute, sent_computeEach hc,
    List.drop_left]

theorem newCalls_computeMaxN {c : ClientController} (hc : c.expressionStack = []) (n : String)
    (params : List String) :
    newCalls w c .computemaxn (n :: params) =
      match lexicalCast n with
      | .ok maxHeight => loopCalls (toSizeT maxHeight) 1 params
      | .error _ => [] := by
  have hsent : (c.counted (n :: params)).sent = c.sent := by
    unfold counted
    split <;> rfl
  rw [newCalls, ControllerAction.execute, computeMaxN_cons]
  cases lexicalCast n with
  | error f => simp [hsent]
  | ok maxHeight =>
    simp only
    rw [sent_computeEach ((counted_kept c _).expressionStack hc), hsent, List.drop_left]

/-- Commands on sentences, after any commands before: the calls of `sendTasks` get what was
typed, one after the other. -/
theorem sentences_sent {c : ClientController} (hreach : Reaches step (fun _ _ => True) {} c)
    (w : World) {params : List String} {asts : List Ast}
    (hsentences : List.Forall₂ Sentence params asts)
    (hactions : ∀ p ∈ params, ∀ f, parse p [] ≠ .error f) :
    ∃ lists, List.Forall₂ Denotes asts lists ∧
      Sends (newCalls w c .compute params) 2 0 asts lists ∧
      ∀ n maxHeight, lexicalCast n = .ok maxHeight →
        Sends (newCalls w c .computemaxn (n :: params)) (toSizeT maxHeight) 1 asts lists := by
  have hc := expressionStack_empty hreach
  obtain ⟨lists, hlists, hcalls⟩ := loopCalls_sentences hsentences hactions
  have hsends : ∀ max_h i, Sends (loopCalls max_h i params) max_h i asts lists := by
    intro max_h i
    refine ⟨hcalls max_h i, fun hdepth => ?_⟩
    have hlength : (callsFor max_h i lists).length ≤ built asts + 1 := by
      simpa [callsFor, ← hlists.length_eq] using length_le_built hdepth
    rw [hcalls, List.take_of_length_le hlength]
  refine ⟨lists, hlists, ?_, fun n maxHeight hn => ?_⟩
  · rw [newCalls_compute hc]
    exact hsends 2 0
  · rw [newCalls_computeMaxN hc, hn]
    exact hsends _ 1

theorem sentences_sent_of_two :
    ∃ lists, List.Forall₂ Denotes [difference, sums 1 one] lists ∧
      Sends (newCalls ⟨toString, fun _ => []⟩ {} .compute ["1 - -2", "1+1"]) 2 0
        [difference, sums 1 one] lists ∧
      ∀ n maxHeight, lexicalCast n = .ok maxHeight →
        Sends (newCalls ⟨toString, fun _ => []⟩ {} .computemaxn [n, "1 - -2", "1+1"])
          (toSizeT maxHeight) 1 [difference, sums 1 one] lists := by
  refine sentences_sent (.refl _) _ (.cons sentence_difference (.cons (sentence_sums 1) .nil)) ?_
  have hdifference : parse "1 - -2" [] = .ok (["1", "-2", "SUBTRACT"], some []) := rfl
  have hsum : parse "1+1" [] = .ok (["1", "1", "ADD"], some []) := rfl
  intro p hp f hf
  rcases List.mem_pair.mp hp with rfl | rfl
  · rw [hdifference] at hf
    cases hf
  · rw [hsum] at hf
    cases hf

theorem exists_newCall_iff {c : ClientController} (hc : c.expressionStack = [])
    {a : ControllerAction} {params : List String} {i : Nat} {s : String} (ha : IsExpression a i)
    (hs : params[i]? = some s) (hparse : ∃ x, parse s [] = .ok x) :
    (∃ k, (i, k) ∈ newCalls w c a params) ↔ Reached a params i := by
  cases a with
  | compute =>
    have hiff := exists_loopCall_iff 2 0 hs hparse
    rw [Nat.zero_add] at hiff
    rw [newCalls_compute hc, hiff, Reached]
  | computemaxn =>
    obtain ⟨j, rfl⟩ : ∃ j, i = 1 + j := ⟨i - 1, by unfold IsExpression at ha; omega⟩
    cases params with
    | nil => cases hs
    | cons n params =>
      have hs' : params[j]? = some s := by rwa [Nat.add_comm, List.getElem?_cons_succ] at hs
      have hiff := fun max_h => exists_loopCall_iff max_h 1 hs' hparse
      rw [newCalls_computeMaxN hc, Reached]
      cases hn : lexicalCast n with
      | error f => simp [hn]
      | ok maxHeight => simp [hn, hiff]
  | exit => cases ha
  | status => cases ha
  | noAction => cases ha

/-- **Which parameters are treated as they should be**: the sentences that the action comes to, and
the other texts that it does not come to. -/
theorem only_sentences_iff {c : ClientController} (hreach : Reaches step (fun _ _ => True) {} c)
    (w : World) {a : ControllerAction} {params : List String} {i : Nat} {s : String}
    (ha : IsExpression a i) (hs : params[i]? = some s) (hparse : ∃ x, parse s [] = .ok x) :
    OnlySentences w c a params i s ↔ (Reached a params i ↔ ∃ t, Sentence s t) := by
  have hiff := exists_newCall_iff (w := w) (expressionStack_empty hreach) ha hs hparse
  constructor
  · intro h
    exact hiff.symm.trans h.starts
  · intro h
    refine ⟨hiff.trans h, fun hnot => ?_⟩
    have hnone : ∀ k, (i, k) ∉ newCalls w c a params := fun k hk =>
      hnot (h.mp (hiff.mp ⟨k, hk⟩))
    exact ⟨hnone, fun ⟨k, hk, _⟩ => hnone k hk⟩

theorem only_sentences_of_difference :
    OnlySentences ⟨toString, fun _ => []⟩ {} .compute ["1 - -2"] 0 "1 - -2" := by
  have hparse : parse "1 - -2" [] = .ok (["1", "-2", "SUBTRACT"], some []) := rfl
  refine (only_sentences_iff (a := .compute) (.refl _) _ trivial rfl ⟨_, hparse⟩).mpr ?_
  exact ⟨fun _ => ⟨_, sentence_difference⟩, fun _ => by simp [Reached]⟩

/-- An unfinished sum: its first operand is computed, and reported as the result. -/
theorem unfinished_sum_computed :
    ¬ ∀ (w : World) (c : ClientController) (a : ControllerAction) (params : List String) (i : Nat)
      (s : String), Reaches step (fun _ _ => True) {} c → IsExpression a i → params[i]? = some s →
      (∃ x, parse s [] = .ok x) → OnlySentences w c a params i s := by
  intro h
  have hparse : parse "1+" [] = .ok (["1"], some ['+']) := rfl
  have hnot : ¬ ∃ t, Sentence "1+" t := by
    rw [← Actions.full_iff (by rw [Actions.source_parse]; exact hparse)]
    decide
  have htree : ExprTree.regenerate ["1"] = .ok ⟨["1"]⟩ := rfl
  have hcall : (0, ⟨["1"], 2⟩) ∈ newCalls ⟨toString, fun _ => []⟩ {} .compute ["1+"] := by
    rw [newCalls_compute rfl, loopCalls_starts _ _ _ hparse htree]
    exact List.mem_cons_self
  have hreports : Reports ⟨["1"], 2⟩ := by
    obtain ⟨st0, hst0, hfinals⟩ : ∃ st0 : ClientControllerSupervisor Nat,
        ClientControllerSupervisor.sendTasks ["1"] 2 = .ok st0 ∧
          st0.finals.map Final.answer = [.ok "1"] := ⟨_, rfl, rfl⟩
    obtain ⟨f, hf, hanswer⟩ := List.mem_map.mp (hfinals ▸ List.mem_singleton_self (Except.ok "1"))
    exact ⟨st0, st0, f, "1", hst0, .refl _, hf, hanswer⟩
  exact ((h _ _ .compute _ 0 _ (.refl _) trivial rfl ⟨_, hparse⟩).silent hnot).2
    ⟨_, hcall, hreports⟩

end DispCalc.ClientController
