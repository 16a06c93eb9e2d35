import DispCalc.ServerMethods

/-!
# The two evaluators

They agree on every list of numerals and operators. The server's one is open to the network,
so this also says which requests it survives.
-/

open Postfix

namespace DispCalc.Evaluators

/-! ## Agreement -/

/-- A token that is treated as a numeral, or one of the four operators. -/
def Known (pos : String) : Prop := startsNumeral pos = true ∨ isOp pos = true

/-- The two number stacks hold the same values. The two `res` need not agree. -/
def SameStack (c : Computer.State) (s : ServerMethodCompute.State) : Prop := c.nums = s.numStack

theorem step_agree {pos : String} (hpos : Known pos) {c : Computer.State}
    {s : ServerMethodCompute.State} (h : SameStack c s) :
    Agree SameStack (Computer.step c pos) (ServerMethodCompute.eval s pos) := by
  obtain ⟨nums, res⟩ := c
  obtain ⟨numStack, res'⟩ := s
  obtain rfl : nums = numStack := h
  rcases hpos with hnum | hop
  · rw [Computer.step_numeral hnum, ServerMethodCompute.eval_numeral hnum]
    rcases lexicalCast pos with f | num
    · rfl
    · exact congrArg (num :: ·) rfl
  · obtain ⟨o, rfl⟩ := (isOp_iff pos).mp hop
    match nums with
    | [] | [_] =>
      rw [Computer.step_name_few o (by simp), ServerMethodCompute.eval_few (by simp) (by simp)]
      rfl
    | arg1 :: arg2 :: nums =>
      rw [Computer.step_name_two, ServerMethodCompute.eval_two (by simp),
        ServerMethodCompute.assign_name]
      rcases o.apply arg2 arg1 with f | v <;> rfl

/-- On numerals and operators, `execute` and `compute` fail at the same token with the same
fault, or return the same integer. -/
theorem evaluators_agree (tokens : List String) (h : ∀ pos ∈ tokens, Known pos)
    (identifier : String) (table : StatusTable) :
    Computer.compute tokens =
      (ServerMethodCompute.execute tokens identifier table).1.map fun num => toString num := by
  have hagree : Agree SameStack (foldAt Computer.step 0 {} tokens)
      (foldAt ServerMethodCompute.eval 0 {} tokens) :=
    foldAt_agree (fun c s pos hpos hcs => step_agree (h pos hpos) hcs) 0 rfl
  rw [ServerMethodCompute.execute_fst, Computer.compute, ServerMethodCompute.answer]
  rcases hc : foldAt Computer.step 0 {} tokens with e | c
  · rcases hs : foldAt ServerMethodCompute.eval 0 {} tokens with e' | s
    · rw [hc, hs] at hagree
      exact congrArg Except.error hagree
    · rw [hc, hs] at hagree
      exact hagree.elim
  · rcases hs : foldAt ServerMethodCompute.eval 0 {} tokens with e' | s
    · rw [hc, hs] at hagree
      exact hagree.elim
    · rw [hc, hs] at hagree
      obtain ⟨nums, res⟩ := c
      obtain ⟨numStack, res'⟩ := s
      obtain rfl : nums = numStack := hagree
      cases nums with
      | nil => rfl
      | cons num nums => rfl

theorem evaluators_agree_on_failure :
    Computer.compute ["-7", "0", "DIVIDE", "ADD"] =
      (ServerMethodCompute.execute ["-7", "0", "DIVIDE", "ADD"] "1" fun _ => none).1.map
        fun num => toString num :=
  evaluators_agree _ (by unfold Known; decide) _ _

/-! ## Requests in exact arithmetic -/

/-- The values a request would compute if integers had no bounds. -/
structure Exact where
  nums : List Int := []
  res : Int := 0

/-- The result of an operator; any other token repeats the previous result. -/
def exactResult (pos : String) (x y res : Int) : Int :=
  if pos = "ADD" then x + y
  else if pos = "SUBTRACT" then x - y
  else if pos = "MULTIPLY" then x * y
  else if pos = "DIVIDE" then x.tdiv y
  else res

def exactStep (x : Exact) (pos : String) : Exact :=
  if startsNumeral pos then { x with nums := (numeral? pos).getD 0 :: x.nums }
  else match x.nums with
    | arg1 :: arg2 :: nums =>
      let res := exactResult pos arg2 arg1 x.res
      ⟨res :: nums, res⟩
    | _ => x

def exact (tokens : List String) : Exact := tokens.foldl exactStep {}

theorem exact_snoc (pre : List String) (pos : String) :
    exact (pre ++ [pos]) = exactStep (exact pre) pos := by
  simp [exact, List.foldl_append]

/-- The values on the stack after `pre`: one for each numeral, one less for each other token. -/
def depth (pre : List String) : Int := weight (fun pos => !startsNumeral pos) pre

/-- After `pre`, the server can process `pos`, which is no numeral: there are two operands, a
result to push, no zero divisor and no overflow. -/
structure Sound (pre : List String) (pos : String) : Prop where
  operands : 2 ≤ depth pre
  result : isOp pos = true ∨ pre.any isOp = true
  divisor : pos = "DIVIDE" → (exact pre).nums.head? ≠ some 0
  range : isOp pos = true → InInt (exact (pre ++ [pos])).res

def Readable (tokens : List String) : Prop :=
  ∀ pos ∈ tokens, startsNumeral pos = true → ∃ num, lexicalCast pos = .ok num

/-- Every token that is no numeral is sound, up to the first numeral that is not in `int`. -/
def SoundAfter (pre tokens : List String) : Prop :=
  ∀ l pos post, tokens = l ++ pos :: post → Readable l → startsNumeral pos = false →
    Sound (pre ++ l) pos

/-- The server returns an `int` or throws. -/
def Survives {α : Type} : Except (Nat × Fault) α → Prop
  | .ok _ => True
  | .error (_, f) => f = .badLexicalCast

/-! ## Which requests the server survives -/

/-- The server's state after `pre` in terms of the exact values. -/
structure Tracks (pre : List String) (st : ServerMethodCompute.State) : Prop where
  nums : st.numStack = (exact pre).nums
  res : st.res = if pre.any isOp then some (exact pre).res else none
  depth : depth pre = st.numStack.length

theorem tracks_nil : Tracks [] {} := ⟨rfl, rfl, rfl⟩

theorem tracks_numeral {pre : List String} {st : ServerMethodCompute.State} (h : Tracks pre st)
    {pos : String} {num : Int} (hpos : startsNumeral pos = true) (hnum : lexicalCast pos = .ok num) :
    Tracks (pre ++ [pos]) { st with numStack := num :: st.numStack } := by
  have hop := isOp_of_startsNumeral hpos
  have hval := (lexicalCast_ok hnum).1
  refine ⟨?_, ?_, ?_⟩
  · simp [exact_snoc, exactStep, hpos, hval, h.nums]
  · simp [exact_snoc, exactStep, hpos, hop, h.res]
  · have := h.depth
    unfold depth at this
    simp [depth, hpos, this]

theorem exactResult_name (o : Op) (x y res : Int) : exactResult o.name x y res = o.exact x y := by
  rcases o <;> rfl

theorem exactResult_unknown {pos : String} (h : isOp pos = false) (x y res : Int) :
    exactResult pos x y res = res := by
  unfold isOp at h
  simp only [Bool.or_eq_false_iff, beq_eq_false_iff_ne, ne_eq] at h
  simp only [exactResult, if_neg (Ne.symm h.1.1.1), if_neg (Ne.symm h.1.1.2), if_neg (Ne.symm h.1.2),
    if_neg (Ne.symm h.2)]

theorem exact_snoc_two {pre : List String} {arg1 arg2 : Int} {numStack : List Int}
    (h : (exact pre).nums = arg1 :: arg2 :: numStack) {pos : String}
    (hpos : startsNumeral pos = false) :
    exact (pre ++ [pos]) =
      ⟨exactResult pos arg2 arg1 (exact pre).res :: numStack, exactResult pos arg2 arg1 (exact pre).res⟩ := by
  rw [exact_snoc, exactStep, if_neg (by simp [hpos]), h]

theorem tracks_push {pre : List String} {arg1 arg2 : Int} {numStack : List Int} {res : Option Int}
    (h : Tracks pre ⟨arg1 :: arg2 :: numStack, res⟩) {pos : String}
    (hpos : startsNumeral pos = false) (hany : isOp pos = true ∨ pre.any isOp = true) :
    Tracks (pre ++ [pos]) ⟨(exact (pre ++ [pos])).res :: numStack, some (exact (pre ++ [pos])).res⟩ := by
  have hdepth := h.depth
  refine ⟨?_, ?_, ?_⟩
  · rw [exact_snoc_two h.nums.symm hpos]
  · rw [if_pos (by simpa [or_comm] using hany)]
  · unfold depth at hdepth
    simp [depth, hpos, hdepth]

theorem eval_of_sound {pre : List String} {st : ServerMethodCompute.State} (h : Tracks pre st)
    {pos : String} (hpos : startsNumeral pos = false) (hs : Sound pre pos) :
    ∃ st', ServerMethodCompute.eval st pos = .ok st' ∧ Tracks (pre ++ [pos]) st' := by
  obtain ⟨numStack, res⟩ := st
  have hlen := hs.operands
  rw [h.depth] at hlen
  match numStack with
  | [] | [_] => simp at hlen
  | arg1 :: arg2 :: numStack =>
    have hpush := tracks_push h hpos hs.result
    refine ⟨_, ?_, hpush⟩
    rw [ServerMethodCompute.eval_two hpos]
    by_cases hop : isOp pos = true
    · obtain ⟨o, rfl⟩ := (isOp_iff pos).mp hop
      have hrange := hs.range hop
      have hdiv : o = .divide → arg1 ≠ 0 := by
        rintro rfl
        have := hs.divisor rfl
        rw [← h.nums] at this
        simpa using this
      rw [exact_snoc_two h.nums.symm hpos, exactResult_name] at hrange ⊢
      rw [ServerMethodCompute.assign_name, Op.apply_ok_iff.mpr ⟨hdiv, rfl, hrange⟩]
      rfl
    · have hany := hs.result.resolve_left hop
      have hres := h.res
      rw [if_pos hany] at hres
      simp only at hres
      rw [Bool.not_eq_true] at hop
      rw [exact_snoc_two h.nums.symm hpos, exactResult_unknown hop,
        ServerMethodCompute.assign_unknown hop, hres]
      rfl

theorem eval_of_not_sound {pre : List String} {st : ServerMethodCompute.State} (h : Tracks pre st)
    {pos : String} (hpos : startsNumeral pos = false) (hs : ¬ Sound pre pos) :
    ∃ f, ServerMethodCompute.eval st pos = .error f ∧ f ≠ .badLexicalCast := by
  obtain ⟨numStack, res⟩ := st
  have hdepth := h.depth
  match numStack with
  | [] | [_] => exact ⟨_, ServerMethodCompute.eval_few hpos (by simp), by decide⟩
  | arg1 :: arg2 :: numStack =>
    have hlen : 2 ≤ depth pre := by
      rw [hdepth]
      simp
      omega
    rw [ServerMethodCompute.eval_two hpos]
    by_cases hop : isOp pos = true
    · obtain ⟨o, rfl⟩ := (isOp_iff pos).mp hop
      rw [ServerMethodCompute.assign_name]
      rcases happ : o.apply arg2 arg1 with f | v
      · exact ⟨f, rfl, by rcases Op.apply_error happ with rfl | rfl <;> decide⟩
      · -- The operation succeeds, so the token was sound.
        obtain ⟨hdiv, -, hrange⟩ := Op.apply_ok_iff.mp happ
        refine absurd ⟨hlen, Or.inl hop, ?_, ?_⟩ hs
        · intro ho
          rw [← h.nums]
          have : o = .divide := by
            rcases o <;> first | rfl | simp [Op.name] at ho
          simpa using hdiv this
        · intro _
          rw [exact_snoc_two h.nums.symm hpos, exactResult_name]
          exact hrange
    · rw [Bool.not_eq_true] at hop
      rw [ServerMethodCompute.assign_unknown hop]
      have hres := h.res
      split at hres
      · rename_i hany
        refine absurd ⟨hlen, Or.inr hany, ?_, fun h => by simp [hop] at h⟩ hs
        rintro rfl
        simp [isOp] at hop
      · simp only at hres
        rw [hres]
        exact ⟨.unassigned, rfl, by decide⟩

theorem readable_cons {pos : String} {tokens : List String} :
    Readable (pos :: tokens) ↔ Readable [pos] ∧ Readable tokens := by
  unfold Readable
  rw [List.forall_mem_cons, List.forall_mem_singleton]

theorem soundAfter_cons {pre rest : List String} {pos : String} :
    SoundAfter pre (pos :: rest) ↔
      (startsNumeral pos = false → Sound pre pos) ∧ (Readable [pos] → SoundAfter (pre ++ [pos]) rest) := by
  constructor
  · intro h
    refine ⟨fun hpos => by simpa using h [] pos rest rfl (by simp [Readable]) hpos, ?_⟩
    rintro hread l p post rfl hl hp
    simpa using h (pos :: l) p post rfl (readable_cons.mpr ⟨hread, hl⟩) hp
  · rintro ⟨hs, h⟩ l p post heq hl hp
    cases l with
    | nil =>
      obtain ⟨rfl, -⟩ := List.cons.inj heq
      simpa using hs hp
    | cons q l =>
      obtain ⟨rfl, rfl⟩ := List.cons.inj heq
      obtain ⟨hread, hl⟩ := readable_cons.mp hl
      simpa using h hread l p post rfl hl hp

theorem soundAfter_numeral {pre rest : List String} {pos : String} {num : Int}
    (hpos : startsNumeral pos = true) (hnum : lexicalCast pos = .ok num) :
    SoundAfter pre (pos :: rest) ↔ SoundAfter (pre ++ [pos]) rest := by
  have hread : Readable [pos] := by simp [Readable, hnum]
  rw [soundAfter_cons]
  simp [hpos, hread]

theorem soundAfter_unreadable {pre rest : List String} {pos : String} {f : Fault}
    (hpos : startsNumeral pos = true) (hnum : lexicalCast pos = .error f) :
    SoundAfter pre (pos :: rest) := by
  have hread : ¬ Readable [pos] := by simp [Readable, hpos, hnum]
  rw [soundAfter_cons]
  simp [hpos, hread]

theorem soundAfter_other {pre rest : List String} {pos : String} (hpos : startsNumeral pos = false) :
    SoundAfter pre (pos :: rest) ↔ Sound pre pos ∧ SoundAfter (pre ++ [pos]) rest := by
  have hread : Readable [pos] := by simp [Readable, hpos]
  rw [soundAfter_cons]
  simp [hpos, hread]

theorem foldAt_survives_iff {pre : List String} {st : ServerMethodCompute.State}
    (h : Tracks pre st) (i : Nat) (tokens : List String) :
    Survives (foldAt ServerMethodCompute.eval i st tokens) ↔ SoundAfter pre tokens := by
  induction tokens generalizing pre st i with
  | nil =>
    refine ⟨fun _ l pos post heq => ?_, fun _ => trivial⟩
    simp at heq
  | cons pos rest ih =>
    by_cases hpos : startsNumeral pos = true
    · have heval := ServerMethodCompute.eval_numeral hpos st
      rcases hnum : lexicalCast pos with f | num
      · rw [hnum] at heval
        rw [foldAt_cons_error heval]
        exact iff_of_true (lexicalCast_error hnum) (soundAfter_unreadable hpos hnum)
      · rw [hnum] at heval
        rw [foldAt_cons_ok heval, soundAfter_numeral hpos hnum]
        exact ih (tracks_numeral h hpos hnum) (i + 1)
    · rw [Bool.not_eq_true] at hpos
      rw [soundAfter_other hpos]
      by_cases hs : Sound pre pos
      · obtain ⟨st', heval, htracks⟩ := eval_of_sound h hpos hs
        rw [foldAt_cons_ok heval, ih htracks (i + 1)]
        exact ⟨fun h => ⟨hs, h⟩, fun h => h.2⟩
      · obtain ⟨f, heval, hf⟩ := eval_of_not_sound h hpos hs
        rw [foldAt_cons_error heval]
        exact iff_of_false hf fun h => hs h.1

theorem eval_numStack_ne_nil {st st' : ServerMethodCompute.State} {pos : String}
    (h : ServerMethodCompute.eval st pos = .ok st') : st'.numStack ≠ [] := by
  by_cases hpos : startsNumeral pos = true
  · rw [ServerMethodCompute.eval_numeral hpos] at h
    rcases hnum : lexicalCast pos with f | num
    · simp [hnum, Except.map] at h
    · rw [hnum] at h
      rw [← Except.ok.inj h]
      simp
  · rw [Bool.not_eq_true] at hpos
    obtain ⟨numStack, res⟩ := st
    match numStack with
    | [] | [_] =>
      rw [ServerMethodCompute.eval_few hpos (by simp)] at h
      cases h
    | arg1 :: arg2 :: numStack =>
      rw [ServerMethodCompute.eval_two hpos] at h
      rcases ha : ServerMethodCompute.assign pos arg1 arg2 res with f | _ | r
      · simp [ha, bind, Except.bind] at h
      · simp [ha, bind, Except.bind, ServerMethodCompute.push] at h
      · simp only [ha, bind, Except.bind, ServerMethodCompute.push, Except.ok.injEq] at h
        simp [← h]

theorem foldAt_numStack_ne_nil {st st' : ServerMethodCompute.State} {i : Nat} {tokens : List String}
    (hst : st.numStack ≠ []) (h : foldAt ServerMethodCompute.eval i st tokens = .ok st') :
    st'.numStack ≠ [] := by
  induction tokens generalizing st i with
  | nil =>
    obtain rfl := Except.ok.inj h
    exact hst
  | cons pos rest ih =>
    rcases he : ServerMethodCompute.eval st pos with f | st1
    · rw [foldAt_cons_error he] at h
      cases h
    · rw [foldAt_cons_ok he] at h
      exact ih (eval_numStack_ne_nil he) h

/-- The server survives a request exactly when its array is not empty and all its tokens,
up to the first numeral that does not fit `int`, are sound. -/
theorem execute_survives_iff (params : List String) (identifier : String) (table : StatusTable) :
    Survives (ServerMethodCompute.execute params identifier table).1 ↔
      params ≠ [] ∧ SoundAfter [] params := by
  rw [ServerMethodCompute.execute_fst, ← foldAt_survives_iff tracks_nil 0 params,
    ServerMethodCompute.answer]
  cases params with
  | nil => simp [Survives]
  | cons pos rest =>
    rcases hrun : foldAt ServerMethodCompute.eval 0 {} (pos :: rest) with e | st
    · simp [Survives]
    · have hne : st.numStack ≠ [] := by
        rcases he : ServerMethodCompute.eval {} pos with f | st1
        · rw [foldAt_cons_error he] at hrun
          cases hrun
        · rw [foldAt_cons_ok he] at hrun
          exact foldAt_numStack_ne_nil (eval_numStack_ne_nil he) hrun
      obtain ⟨num, numStack, hst⟩ := List.exists_cons_of_ne_nil hne
      simp [hst, Survives]

/-- A request of one operator reads the top of an empty stack. -/
theorem execute_dies :
    ¬ ∀ (params : List String) (identifier : String) (table : StatusTable),
      Survives (ServerMethodCompute.execute params identifier table).1 := by
  intro h
  have hadd : (ServerMethodCompute.execute ["ADD"] "1" fun _ => none).1 = .error (0, .emptyStack) := rfl
  have hsurvives := h ["ADD"] "1" fun _ => none
  rw [hadd] at hsurvives
  cases hsurvives

end DispCalc.Evaluators
