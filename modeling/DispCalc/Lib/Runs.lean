import Mathlib.Logic.Relation

/-!
# Runs of a system

A system takes one event at a time and may refuse it. A run is a sequence of accepted
events, each under a condition on the event and the state it finds.
-/

namespace Runs

open Relation

variable {σ ε : Type}

/-- One step whose event meets the condition `ok` in the state before it. -/
def StepIf (step : σ → ε → Option σ) (ok : σ → ε → Prop) (s s' : σ) : Prop :=
  ∃ e, ok s e ∧ step s e = some s'

/-- Some run of such steps leads from the first state to the second. -/
def Reaches (step : σ → ε → Option σ) (ok : σ → ε → Prop) : σ → σ → Prop :=
  ReflTransGen (StepIf step ok)

variable {step : σ → ε → Option σ} {ok ok' : σ → ε → Prop} {s s' : σ}

theorem Reaches.refl (s : σ) : Reaches step ok s s := ReflTransGen.refl

theorem Reaches.trans {s'' : σ} (h : Reaches step ok s s') (h' : Reaches step ok s' s'') :
    Reaches step ok s s'' := ReflTransGen.trans h h'

theorem Reaches.tail {s'' : σ} {e : ε} (h : Reaches step ok s s') (hok : ok s' e)
    (he : step s' e = some s'') : Reaches step ok s s'' := ReflTransGen.tail h ⟨e, hok, he⟩

theorem Reaches.weaken (h : Reaches step ok s s') (himp : ∀ s e, ok s e → ok' s e) :
    Reaches step ok' s s' :=
  ReflTransGen.mono (fun _ _ ⟨e, hok, he⟩ => ⟨e, himp _ e hok, he⟩) _ _ h

/-- **The invariant rule**: what holds at the start and is kept by each step holds at the end
of every run. -/
theorem Reaches.invariant {I : σ → Prop} (h : Reaches step ok s s') (hstart : I s)
    (hstep : ∀ s s' e, I s → ok s e → step s e = some s' → I s') : I s' := by
  induction h with
  | refl => exact hstart
  | tail _ hlast ih =>
    obtain ⟨e, hok, he⟩ := hlast
    exact hstep _ _ e ih hok he

theorem Reaches.invariant_of {I J : σ → Prop} (h : Reaches step ok s s')
    (hinv : ∀ t, Reaches step ok s t → I t) (hstart : J s)
    (hstep : ∀ s s' e, I s → I s' → J s → ok s e → step s e = some s' → J s') :
    J s' := by
  induction h with
  | refl => exact hstart
  | tail hrun hlast ih =>
    obtain ⟨e, hok, he⟩ := hlast
    exact hstep _ _ e (hinv _ hrun) (hinv _ (Reaches.tail hrun hok he)) ih hok he

theorem Reaches.weaken_of {I : σ → Prop} (h : Reaches step ok s s')
    (hinv : ∀ t, Reaches step ok s t → I t) (himp : ∀ s e, I s → ok s e → ok' s e) :
    Reaches step ok' s s' := by
  induction h with
  | refl => exact Reaches.refl s
  | tail hrun hlast ih =>
    obtain ⟨e, hok, he⟩ := hlast
    exact ih.tail (himp _ e (hinv _ hrun) hok) he

/-- **The simulation rule**: if every step is seen as a step of another system or not at all, then
every run is seen as a run of it. -/
theorem Reaches.simulates {σ' ε' : Type} {step' : σ' → ε' → Option σ'} {okOf : σ' → ε' → Prop} {I : σ → Prop}
    (h : Reaches step ok s s') (view : σ → σ') (hinv : ∀ t, Reaches step ok s t → I t)
    (hstep : ∀ s s' e, I s → ok s e → step s e = some s' →
      view s' = view s ∨ StepIf step' okOf (view s) (view s')) :
    Reaches step' okOf (view s) (view s') := by
  induction h with
  | refl => exact Reaches.refl (view s)
  | tail hrun hlast ih =>
    obtain ⟨e, hok, he⟩ := hlast
    rcases hstep _ _ e (hinv _ hrun) hok he with hsame | hseen
    · rwa [hsame]
    · exact ReflTransGen.tail ih hseen

/-- **The variant rule**: while the goal is not reached, some step leads on and makes the
variant `μ` smaller. -/
theorem exists_reaches {I D : σ → Prop} (μ : σ → Nat)
    (hstep : ∀ s, I s → ¬ D s → ∃ e s', ok s e ∧ step s e = some s' ∧ I s' ∧ μ s' < μ s)
    (s : σ) (hs : I s) : ∃ s', Reaches step ok s s' ∧ I s' ∧ D s' := by
  induction hn : μ s using Nat.strongRecOn generalizing s with
  | _ n ih =>
    by_cases hdone : D s
    · exact ⟨s, Reaches.refl s, hs, hdone⟩
    · obtain ⟨e, t, hok, he, ht, hlt⟩ := hstep s hs hdone
      obtain ⟨s', hrun, hs', hdone'⟩ := ih (μ t) (hn ▸ hlt) t ht rfl
      exact ⟨s', ReflTransGen.head ⟨e, hok, he⟩ hrun, hs', hdone'⟩

/-- Such steps cannot go on for ever from `s`, and wherever they stop, `D` holds. -/
structure EndsIn (step : σ → ε → Option σ) (ok : σ → ε → Prop) (D : σ → Prop) (s : σ) : Prop where
  halts : Acc (fun t' t => StepIf step ok t t') s
  last : ∀ t, Reaches step ok s t → (∀ t', ¬ StepIf step ok t t') → D t

/-- **The variant rule for every run**: each step makes the variant `μ` smaller, and no step is
left only where the goal is reached. -/
theorem endsIn_of_variant {I D : σ → Prop} (μ : σ → Nat)
    (hstep : ∀ s s' e, I s → ok s e → step s e = some s' → I s' ∧ μ s' < μ s)
    (hlast : ∀ s, I s → (∀ s', ¬ StepIf step ok s s') → D s) (hs : I s) : EndsIn step ok D s := by
  refine ⟨?_, fun t hrun hstuck => hlast t ?_ hstuck⟩
  · induction hn : μ s using Nat.strongRecOn generalizing s with
    | _ n ih =>
      refine Acc.intro s fun t ht => ?_
      obtain ⟨e, hok, he⟩ := ht
      obtain ⟨hI, hlt⟩ := hstep s t e hs hok he
      exact ih (μ t) (hn ▸ hlt) hI rfl
  · exact hrun.invariant hs fun s s' e hI hok he => (hstep s s' e hI hok he).1

theorem EndsIn.exists {D : σ → Prop} (h : EndsIn step ok D s) : ∃ t, Reaches step ok s t ∧ D t := by
  obtain ⟨hhalts, hlast⟩ := h
  induction hhalts with
  | intro s _ ih =>
    by_cases hstuck : ∀ t, ¬ StepIf step ok s t
    · exact ⟨s, Reaches.refl s, hlast s (Reaches.refl s) hstuck⟩
    · obtain ⟨t, ht⟩ := Classical.not_forall_not.mp hstuck
      obtain ⟨t', hrun, hD⟩ := ih t ht fun t' hrun => hlast t' (ReflTransGen.head ht hrun)
      exact ⟨t', ReflTransGen.head ht hrun, hD⟩

/-- Takes a list of events in order, each under the condition. -/
def play (step : σ → ε → Option σ) (ok : σ → ε → Bool) (s : σ) (es : List ε) : Option σ :=
  es.foldlM (fun s e => if ok s e then step s e else none) s

theorem reaches_of_play {ok : σ → ε → Bool} {es : List ε} (h : play step ok s es = some s') :
    Reaches step (fun s e => ok s e = true) s s' := by
  induction es generalizing s with
  | nil =>
    obtain rfl := Option.some.inj h
    exact Reaches.refl s
  | cons e es ih =>
    rw [play, List.foldlM_cons] at h
    by_cases hok : ok s e = true
    · rcases he : step s e with _ | t
      · simp [hok, he] at h
      · simp only [hok, he, if_true] at h
        exact ReflTransGen.head ⟨e, hok, he⟩ (ih h)
    · simp [hok] at h

end Runs
