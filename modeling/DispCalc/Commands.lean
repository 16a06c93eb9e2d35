import DispCalc.ClientController
import DispCalc.ExprTree.LaidOut
import DispCalc.Parser.Residue
import DispCalc.Throws

/-!
# The commands of the user

Which lines the controller survives, and for which parameters it starts a supervisor.
-/

open Postfix Recognizer Runs DispCalc.Parser DispCalc.ClientControllerSupervisor

namespace DispCalc

/-! ## Lists that `parse` leaves -/

/-- The operators of a parse tree. -/
def Parser.Ast.shape : Ast → Expr Unit Op
  | .lit _ => .leaf ()
  | .neg a => a.shape
  | .pos a => a.shape
  | .bin o l r => .node o l.shape r.shape

theorem shape_of_fold {a : Ast} {e : NumExpr} (h : a.fold = .ok e) :
    a.shape = Expr.map (fun _ => ()) e := by
  induction a generalizing e with
  | lit d =>
    cases h
    rfl
  | neg a ih =>
    obtain ⟨e', he', hneg⟩ := neg_fold_ok h
    obtain ⟨n, v, rfl, -, -, rfl⟩ := negate_ok hneg
    rw [Ast.shape, ih he']
    rfl
  | pos a ih => exact ih h
  | bin o l r ihl ihr =>
    obtain ⟨x, y, hx, hy, rfl⟩ := bin_fold_ok h
    rw [Ast.shape, ihl hx, ihr hy, Expr.map]

theorem laidOut_shapes {as : List Ast} {ts : List NumExpr}
    (h : List.Forall₂ (fun a e => a.fold = .ok e) as ts) :
    ExprTree.LaidOut (as.map Ast.shape) ↔ ExprTree.LaidOut ts := by
  have hshapes : as.map Ast.shape = ts.map (Expr.map fun _ => ()) := by
    induction h with
    | nil => rfl
    | cons ha _ ih => rw [List.map_cons, List.map_cons, shape_of_fold ha, ih]
  rw [hshapes, ExprTree.laidOut_map]

theorem regenerate_written_iff (ts : List NumExpr) :
    (∃ tree, ExprTree.regenerate (written ts) = .ok tree) ↔ ExprTree.LaidOut ts := by
  rw [← written_toOperand, ExprTree.regenerate_codes_iff, ExprTree.laidOut_map]

/-- No minus sign of the parameter throws, and what it leaves behind has room in a tree. -/
structure Harmless (p : String) : Prop where
  returns : ¬ Throws p
  room : ∃ as, Residue (cStr p) as ∧ ExprTree.LaidOut (as.map Ast.shape)

theorem regenerate_residue_iff {p : String} {st : List String} {m : Option (List Char)}
    (hparse : parse p [] = .ok (st, m)) {as : List Ast} (has : Residue (cStr p) as) :
    (∃ tree, ExprTree.regenerate st = .ok tree) ↔ ExprTree.LaidOut (as.map Ast.shape) := by
  obtain ⟨ts, hts, hst⟩ := parse_residue hparse has
  obtain rfl : st = written ts := by simpa using hst
  rw [laidOut_shapes hts, regenerate_written_iff]

theorem harmless_iff (p : String) :
    Harmless p ↔ ∃ st m tree, parse p [] = .ok (st, m) ∧ ExprTree.regenerate st = .ok tree := by
  constructor
  · rintro ⟨hreturns, as, has, hlaid⟩
    obtain ⟨⟨st, m⟩, hparse⟩ := (parse_returns_iff p []).mpr hreturns
    obtain ⟨tree, htree⟩ := (regenerate_residue_iff hparse has).mpr hlaid
    exact ⟨st, m, tree, hparse, htree⟩
  · rintro ⟨st, m, tree, hparse, htree⟩
    obtain ⟨as, has⟩ := exists_residue (cStr p)
    exact ⟨(parse_returns_iff p []).mp ⟨_, hparse⟩, as, has,
      (regenerate_residue_iff hparse has).mp ⟨tree, htree⟩⟩

theorem regenerate_fold_iff {a : Ast} {e : NumExpr} (h : a.fold = .ok e) :
    (∃ tree, ExprTree.regenerate e.tokens = .ok tree) ↔ a.depth ≤ 30 := by
  rw [← written_one, regenerate_written_iff, ExprTree.laidOut_one, height_of_fold h]

theorem harmless_sentence_iff {s : String} {a : Ast} (h : Sentence s a) (hlit : a.LiteralsFit) :
    Harmless s ↔ (∀ b ∈ a.negs, b.depth = 0) ∧ a.depth ≤ 30 := by
  rw [harmless_iff]
  constructor
  · rintro ⟨st, m, tree, hparse, htree⟩
    obtain ⟨e, he, rfl⟩ := tokens_of_sentence h hparse
    exact ⟨simple_negs_of_fold he, (regenerate_fold_iff he).mp ⟨tree, htree⟩⟩
  · rintro ⟨hnegs, hdepth⟩
    obtain ⟨e, he⟩ := fold_of_simple_negs hlit hnegs
    obtain ⟨ws, hparse⟩ := parse_sentence h []
    obtain ⟨tree, htree⟩ := (regenerate_fold_iff he).mpr hdepth
    exact ⟨e.tokens, some ws, tree, hparse.trans (reading_ok he [] ws), htree⟩

namespace ClientController

variable {w : World}

/-! ## The loop over the expressions -/

/-- The state in which the constructor of a supervisor is called. -/
def called (c : ClientController) (i : Nat) (k : Call) : ClientController :=
  { c with expressionStack := k.s, sent := c.sent ++ [(i, k)] }

/-- The state after an iteration. -/
def started (w : World) (c : ClientController) (i : Nat) (k : Call) (tree : ExprTree) :
    ClientController :=
  { c with
    expressionStack := []
    sent := c.sent ++ [(i, k)]
    posted := c.posted ++ [("ui",
      { messageBody := "Identyfikator dostarczonych obliczen to: " ++ w.getId c.sent.length })]
    supervisors := insertSupervisor (w.getId c.sent.length) ⟨tree, k.max_h⟩ c.supervisors }

theorem computeEach_throws {p : String} {c : ClientController} {f : Fault}
    (h : parse p c.expressionStack = .error f) (max_h i : Nat) (params : List String) :
    computeEach w max_h i (p :: params) c = .error (.fault f) c := by
  unfold computeEach
  simp only [bind, EStateM.bind, get, getThe, MonadStateOf.get, EStateM.get_apply, call, h]

theorem computeEach_stops {p : String} {c : ClientController} {st : List String}
    {m : Option (List Char)} {f : Fault} (h : parse p c.expressionStack = .ok (st, m))
    (htree : ExprTree.regenerate st = .error f) (max_h i : Nat) (params : List String) :
    computeEach w max_h i (p :: params) c = .error (.fault f) (c.called i ⟨st, max_h⟩) := by
  unfold computeEach sendTasks
  simp only [bind, EStateM.bind, get, getThe, MonadStateOf.get, EStateM.get_apply, call, h, htree]
  rfl

theorem computeEach_starts {p : String} {c : ClientController} {st : List String}
    {m : Option (List Char)} {tree : ExprTree} (h : parse p c.expressionStack = .ok (st, m))
    (htree : ExprTree.regenerate st = .ok tree) (max_h i : Nat) (params : List String) :
    computeEach w max_h i (p :: params) c =
      computeEach w max_h (i + 1) params (started w c i ⟨st, max_h⟩ tree) := by
  conv_lhs => unfold computeEach sendTasks
  simp only [bind, EStateM.bind, get, getThe, MonadStateOf.get, EStateM.get_apply, call, h, htree]
  rfl

theorem computeEach_returns_iff {c : ClientController} (hc : c.expressionStack = []) (max_h i : Nat)
    (params : List String) :
    (∃ c', computeEach w max_h i params c = .ok () c') ↔ ∀ p ∈ params, Harmless p := by
  induction params generalizing c i with
  | nil => exact ⟨fun _ => by simp, fun _ => ⟨c, rfl⟩⟩
  | cons p params ih =>
    rw [List.forall_mem_cons, harmless_iff]
    cases hparse : parse p [] with
    | error f =>
      rw [computeEach_throws (hc ▸ hparse)]
      simp
    | ok x =>
      obtain ⟨st, m⟩ := x
      cases htree : ExprTree.regenerate st with
      | error f =>
        rw [computeEach_stops (hc ▸ hparse) htree]
        constructor
        · rintro ⟨c', hc'⟩
          cases hc'
        · rintro ⟨⟨st', m', tree, hparse', htree'⟩, -⟩
          obtain ⟨rfl, -⟩ := Prod.mk.inj (Except.ok.inj hparse')
          rw [htree] at htree'
          cases htree'
      | ok tree =>
        rw [computeEach_starts (hc ▸ hparse) htree, ih rfl]
        exact ⟨fun h => ⟨⟨st, m, tree, rfl, htree⟩, h⟩, fun h => h.2⟩

/-- What an action that returns leaves as it was: the stack is empty, and the program runs on. -/
structure Kept (c c' : ClientController) : Prop where
  expressionStack : c.expressionStack = [] → c'.expressionStack = []
  programRunning : c'.programRunning = c.programRunning

theorem Kept.trans {c c' c'' : ClientController} (h : Kept c c') (h' : Kept c' c'') : Kept c c'' :=
  ⟨fun hc => h'.expressionStack (h.expressionStack hc), h'.programRunning.trans h.programRunning⟩

theorem computeEach_kept {c c' : ClientController} {max_h i : Nat} {params : List String}
    (h : computeEach w max_h i params c = .ok () c') : Kept c c' := by
  induction params generalizing c i with
  | nil =>
    cases h
    exact ⟨id, rfl⟩
  | cons p params ih =>
    cases hparse : parse p c.expressionStack with
    | error f =>
      rw [computeEach_throws hparse] at h
      cases h
    | ok x =>
      cases htree : ExprTree.regenerate x.1 with
      | error f =>
        rw [computeEach_stops (m := x.2) hparse htree] at h
        cases h
      | ok tree =>
        rw [computeEach_starts (m := x.2) hparse htree] at h
        exact ⟨fun _ => (ih h).expressionStack rfl, (ih h).programRunning⟩

/-! ## The other actions -/

theorem visit_returns_iff (replies : List Reply) (c : ClientController) :
    (∃ c', visit replies c = .ok () c') ↔ Reply.networkError ∉ replies := by
  induction replies generalizing c with
  | nil => exact ⟨fun _ => by simp, fun _ => ⟨c, rfl⟩⟩
  | cons reply rest ih =>
    cases reply with
    | value text => exact (ih _).trans (by simp)
    | exception => exact (ih _).trans (by simp)
    | networkError =>
      constructor
      · rintro ⟨c', hc'⟩
        cases hc'
      · intro h
        simp at h

theorem visit_kept {replies : List Reply} {c c' : ClientController}
    (h : visit replies c = .ok () c') : Kept c c' := by
  induction replies generalizing c with
  | nil =>
    cases h
    exact ⟨id, rfl⟩
  | cons reply rest ih =>
    cases reply with
    | value text =>
      have hrest := ih (c := { c with posted := c.posted ++ [("ui", { messageBody := text })] }) h
      exact ⟨hrest.expressionStack, hrest.programRunning⟩
    | exception =>
      have hrest := ih (c := { c with
        cerr := c.cerr ++ ["Wystapil nie oczekiwany blad biblioteki XML-RPC\n"] }) h
      exact ⟨hrest.expressionStack, hrest.programRunning⟩
    | networkError => cases h

theorem checkStatus_cons (id : String) (params : List String) (c : ClientController) :
    checkStatus w (id :: params) c =
      if (c.supervisors.lookup id).isSome then visit (w.replies id) c
      else postMessage "ui" { messageBody := "Niepoprawny identyfikator obliczen" } c := by
  unfold checkStatus
  simp only [bind, EStateM.bind, get, getThe, MonadStateOf.get, EStateM.get_apply]
  cases c.supervisors.lookup id <;> rfl

/-- The state after the check of the number of parameters, which only prints. -/
def counted (c : ClientController) (params : List String) : ClientController :=
  if params.length < 2 then { c with cerr := c.cerr ++ ["Bledna liczba parametrow polecenia"] } else c

theorem counted_kept (c : ClientController) (params : List String) : Kept c (c.counted params) := by
  unfold counted
  split
  · exact ⟨id, rfl⟩
  · exact ⟨id, rfl⟩

theorem computeMaxN_nil (c : ClientController) :
    ComputeMaxNAction.execute w [] c = .error (.fault .outOfRange) (c.counted []) := rfl

theorem computeMaxN_cons (n : String) (params : List String) (c : ClientController) :
    ComputeMaxNAction.execute w (n :: params) c =
      match lexicalCast n with
      | .ok maxHeight => computeEach w (toSizeT maxHeight) 1 params (c.counted (n :: params))
      | .error f => .error (.fault f) (c.counted (n :: params)) := by
  unfold ComputeMaxNAction.execute counted
  by_cases h : (n :: params).length < 2
  · simp only [h, if_true, bind, EStateM.bind, modify, modifyGet, MonadStateOf.modifyGet,
      EStateM.modifyGet_apply, call]
    cases lexicalCast n <;> rfl
  · simp only [h, if_false, bind, EStateM.bind, call]
    cases lexicalCast n <;> rfl

/-! ## Every line -/

/-- No parameter is missing that is read, the height is an `int`, no expression stops the loop, and
every server that is asked for its status can be reached. -/
def Survivable (w : World) (c : ClientController) : ControllerAction → List String → Prop
  | .compute, params => ∀ p ∈ params, Harmless p
  | .computemaxn, params =>
    ∃ n rest maxHeight, params = n :: rest ∧ lexicalCast n = .ok maxHeight ∧ ∀ p ∈ rest, Harmless p
  | .status, params =>
    ∃ id rest, params = id :: rest ∧
      ((c.supervisors.lookup id).isSome = true → Reply.networkError ∉ w.replies id)
  | .exit, _ | .noAction, _ => True

theorem execute_returns_iff {c : ClientController} (hc : c.expressionStack = [])
    (a : ControllerAction) (params : List String) :
    (∃ c', a.execute w params c = .ok () c') ↔ Survivable w c a params := by
  cases a with
  | exit => exact ⟨fun _ => trivial, fun _ => ⟨_, rfl⟩⟩
  | compute => exact computeEach_returns_iff hc 2 0 params
  | computemaxn =>
    cases params with
    | nil => simp [ControllerAction.execute, Survivable, computeMaxN_nil]
    | cons n params =>
      rw [ControllerAction.execute, computeMaxN_cons]
      cases hn : lexicalCast n with
      | error f => simp [Survivable, hn]
      | ok maxHeight =>
        rw [computeEach_returns_iff ((counted_kept c _).expressionStack hc)]
        simp [Survivable, hn]
  | status =>
    cases params with
    | nil =>
      constructor
      · rintro ⟨c', hc'⟩
        cases hc'
      · rintro ⟨id, rest, h, -⟩
        cases h
    | cons id params =>
      rw [ControllerAction.execute, StatusAction.execute, checkStatus_cons]
      split
      · rename_i hid
        rw [visit_returns_iff]
        constructor
        · exact fun h => ⟨id, params, rfl, fun _ => h⟩
        · rintro ⟨id', rest, heq, h⟩
          cases heq
          exact h hid
      · rename_i hid
        constructor
        · exact fun _ => ⟨id, params, rfl, fun h => absurd h hid⟩
        · exact fun _ => ⟨_, rfl⟩
  | noAction => exact ⟨fun _ => trivial, fun _ => ⟨_, rfl⟩⟩

theorem execute_kept {c c' : ClientController} {a : ControllerAction} (ha : a ≠ .exit)
    {params : List String} (h : a.execute w params c = .ok () c') : Kept c c' := by
  cases a with
  | exit => exact absurd rfl ha
  | compute => exact computeEach_kept h
  | computemaxn =>
    cases params with
    | nil => cases h
    | cons n params =>
      rw [ControllerAction.execute, computeMaxN_cons] at h
      cases hn : lexicalCast n with
      | error f =>
        rw [hn] at h
        cases h
      | ok maxHeight =>
        rw [hn] at h
        exact (counted_kept c _).trans (computeEach_kept h)
  | status =>
    cases params with
    | nil => cases h
    | cons id params =>
      rw [ControllerAction.execute, StatusAction.execute, checkStatus_cons] at h
      split at h
      · exact visit_kept h
      · cases h
        exact ⟨fun hc => hc, rfl⟩
  | noAction =>
    cases h
    exact ⟨fun hc => hc, rfl⟩

/-- The action that a message selects. -/
def selected (m : Message) : ControllerAction := (actions.lookup m.messageBody).getD .noAction

/-- The state in which the action of a message starts. -/
def announced (c : ClientController) (m : Message) : ClientController :=
  { c with posted := c.posted ++ [("ui",
    { messageBody := "ClientController::dispatchMessage got action (" ++ m.messageBody ++ ")" })] }

theorem dispatchMessage_eq (m : Message) (c : ClientController) :
    dispatchMessage w m c = (selected m).execute w m.params (c.announced m) := by
  unfold dispatchMessage selected
  simp only [bind, EStateM.bind, postMessage, modify, modifyGet, MonadStateOf.modifyGet,
    EStateM.modifyGet_apply]
  cases actions.lookup m.messageBody <;> rfl

theorem selected_exit_iff (m : Message) : selected m = .exit ↔ m.messageBody = "exit" := by
  unfold selected actions
  constructor
  · intro h
    by_contra hne
    simp only [List.lookup_cons, List.lookup_nil, beq_eq_false_iff_ne.mpr hne] at h
    repeat' split at h
    all_goals simp at h
  · intro h
    rw [h]
    rfl

theorem input_eq (line : String) (c : ClientController) :
    input w line c = if line.isEmpty then .ok () c
      else (selected (createMessage line)).execute w (createMessage line).params
        (c.announced (createMessage line)) := by
  unfold input
  split
  · rfl
  · exact dispatchMessage_eq _ c

theorem step_eq_some {c c' : ClientController} {line : String} (h : step c (w, line) = some c') :
    c.programRunning = true ∧ input w line c = .ok () c' := by
  simp only [step] at h
  split at h
  · rename_i hrunning
    cases hinput : input w line c with
    | ok u c₁ =>
      rw [hinput] at h
      exact ⟨hrunning, by rw [Option.some.inj h]⟩
    | error f c₁ =>
      rw [hinput] at h
      cases h
  · cases h

theorem expressionStack_empty {c : ClientController} (h : Reaches step (fun _ _ => True) {} c) :
    c.expressionStack = [] := by
  refine h.invariant (I := fun c => c.expressionStack = []) rfl ?_
  rintro c c' ⟨w, line⟩ hc - hstep
  obtain ⟨-, hinput⟩ := step_eq_some hstep
  rw [input_eq] at hinput
  split at hinput
  · cases hinput
    exact hc
  · by_cases hexit : selected (createMessage line) = .exit
    · rw [hexit] at hinput
      cases hinput
      exact hc
    · exact (execute_kept hexit hinput).expressionStack hc

/-- The message of a line is handled to its end, and the loop goes on after every line but
`exit`. -/
def GoesOn (w : World) (c : ClientController) (line : String) : Prop :=
  ∃ c', input w line c = .ok () c' ∧
    (c'.programRunning = true ↔ (createMessage line).messageBody ≠ "exit")

/-- **Which lines the controller survives**, in every state that it reaches. -/
theorem goes_on_iff {c : ClientController} (hreach : Reaches step (fun _ _ => True) {} c)
    (hrunning : c.programRunning = true) (w : World) (line : String) :
    GoesOn w c line ↔
      Survivable w c (selected (createMessage line)) (createMessage line).params := by
  have hc := expressionStack_empty hreach
  have hsame : Survivable w (c.announced (createMessage line)) = Survivable w c := by
    funext a params
    cases a <;> rfl
  rw [← hsame, ← execute_returns_iff (c := c.announced (createMessage line)) hc]
  unfold GoesOn
  rw [input_eq]
  by_cases hempty : line.isEmpty = true
  · obtain rfl : line = "" := String.isEmpty_iff.mp hempty
    simp only [hempty, if_true]
    have hmessage : createMessage "" = ⟨"", [], "ui", .action⟩ := by decide
    rw [hmessage]
    exact ⟨fun _ => ⟨_, rfl⟩, fun _ => ⟨c, rfl, by simp [hrunning]⟩⟩
  · rw [if_neg hempty]
    constructor
    · rintro ⟨c', hc', -⟩
      exact ⟨c', hc'⟩
    · rintro ⟨c', hc'⟩
      refine ⟨c', hc', ?_⟩
      rw [ne_eq, ← selected_exit_iff]
      by_cases hexit : selected (createMessage line) = .exit
      · rw [hexit] at hc'
        cases hc'
        simp [hexit]
      · rw [(execute_kept hexit hc').programRunning]
        simp [hexit, announced, hrunning]

theorem goes_on_of_unknown : GoesOn ⟨toString, fun _ => []⟩ {} "status 7" := by
  have hmessage : createMessage "status 7" = ⟨"status", ["7"], "ui", .action⟩ := by decide
  refine (goes_on_iff (.refl _) rfl _ _).mpr ?_
  rw [hmessage]
  exact ⟨"7", [], rfl, fun _ => by simp⟩

/-- `status` without an identifier reads a parameter that is not there. -/
theorem status_without_identifier :
    ¬ ∀ (c : ClientController) (w : World) (line : String),
      Reaches step (fun _ _ => True) {} c → c.programRunning = true → GoesOn w c line := by
  intro h
  obtain ⟨c', hc', -⟩ := h {} ⟨toString, fun _ => []⟩ "status" (.refl _) rfl
  have hmessage : createMessage "status" = ⟨"status", [], "ui", .action⟩ := by decide
  rw [input_eq, hmessage] at hc'
  cases hc'

end ClientController

end DispCalc
