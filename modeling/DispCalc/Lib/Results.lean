/-!
# Results that may fail

What the outcome of a sequence of steps says about the steps.
-/

namespace Except

variable {ε α β : Type}

@[simp] theorem ok_bind (a : α) (f : α → Except ε β) : (Except.ok a >>= f) = f a := rfl

@[simp] theorem error_bind (e : ε) (f : α → Except ε β) :
    ((Except.error e : Except ε α) >>= f) = .error e := rfl

theorem bind_eq_ok {x : Except ε α} {f : α → Except ε β} {b : β} :
    (x >>= f) = .ok b ↔ ∃ a, x = .ok a ∧ f a = .ok b := by
  rcases x with e | a
  · simp
  · simp

theorem bind_eq_error {x : Except ε α} {f : α → Except ε β} {e : ε} :
    (x >>= f) = .error e ↔ x = .error e ∨ ∃ a, x = .ok a ∧ f a = .error e := by
  rcases x with e' | a
  · simp
  · simp

theorem map_eq_ok {x : Except ε α} {f : α → β} {b : β} :
    x.map f = .ok b ↔ ∃ a, x = .ok a ∧ f a = b := by
  rcases x with e | a
  · simp [Except.map]
  · simp [Except.map]

theorem map_eq_error {x : Except ε α} {f : α → β} {e : ε} : x.map f = .error e ↔ x = .error e := by
  rcases x with e' | a
  · simp [Except.map]
  · simp [Except.map]

/-- The value with the proof that it is the outcome, for a recursion on a part of it. -/
def attach (x : Except ε α) : Except ε { a : α // x = .ok a } :=
  match x with
  | .ok a => .ok ⟨a, rfl⟩
  | .error e => .error e

theorem attach_bind {x : Except ε α} {g : { a : α // x = .ok a } → Except ε β} {f : α → Except ε β}
    (h : ∀ a ha, g ⟨a, ha⟩ = f a) : (x.attach >>= g) = x >>= f := by
  rcases x with e | a
  · rfl
  · exact h a rfl

/-! ## Folds -/

variable {σ τ : Type} {f : σ → τ → Except ε σ} {s s' : σ}

theorem foldlM_cons_eq_ok {t : τ} {ts : List τ} :
    (t :: ts).foldlM f s = .ok s' ↔ ∃ s1, f s t = .ok s1 ∧ ts.foldlM f s1 = .ok s' := by
  rw [List.foldlM_cons]
  exact bind_eq_ok

theorem foldlM_append_eq_ok {ts us : List τ} :
    (ts ++ us).foldlM f s = .ok s' ↔ ∃ s1, ts.foldlM f s = .ok s1 ∧ us.foldlM f s1 = .ok s' := by
  rw [List.foldlM_append]
  exact bind_eq_ok

end Except

/-! ## Results with a state -/

namespace EStateM

variable {ε σ α : Type}

theorem get_apply (s : σ) : (EStateM.get : EStateM ε σ σ) s = .ok s s := rfl

theorem modifyGet_apply (f : σ → α × σ) (s : σ) :
    (EStateM.modifyGet f : EStateM ε σ α) s = .ok (f s).1 (f s).2 := rfl

end EStateM

namespace EStateM.Result

variable {ε σ α : Type}

/-- The state at the end, or at the throw. -/
def state : EStateM.Result ε σ α → σ
  | .ok _ s => s
  | .error _ s => s

@[simp] theorem state_ok (a : α) (s : σ) : (.ok a s : EStateM.Result ε σ α).state = s := rfl

@[simp] theorem state_error (e : ε) (s : σ) : (.error e s : EStateM.Result ε σ α).state = s := rfl

end EStateM.Result
