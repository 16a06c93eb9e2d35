import DispCalc.Lib.Layout

/-!
# Trees read from a list

A list is read root first, and the right operand before the left one. `p` tells the labels that
take operands. A list that ends too early leaves a tree that is only begun.
-/

namespace Layout

variable {α : Type} {p : α → Bool}

/-- The labels in reading order. -/
def reading : BinaryTree α → List α
  | .nil => []
  | .node v l r => v :: (reading r ++ reading l)

/-- The trees that are read to their end. -/
inductive Full (p : α → Bool) : BinaryTree α → Prop where
  | operand {v : α} (hv : p v = false) : Full p (.node v .nil .nil)
  | operator {v : α} {l r : BinaryTree α} (hv : p v = true) (hl : Full p l) (hr : Full p r) :
    Full p (.node v l r)

/-- The trees of which a part is read: nothing, or some of the right operand, or all of it and
some of the left one. -/
inductive Begun (p : α → Bool) : BinaryTree α → Prop where
  | nil : Begun p .nil
  | operand {v : α} (hv : p v = false) : Begun p (.node v .nil .nil)
  | right {v : α} {r : BinaryTree α} (hv : p v = true) (hr : Begun p r) : Begun p (.node v .nil r)
  | left {v : α} {l r : BinaryTree α} (hv : p v = true) (hl : Begun p l) (hr : Full p r) :
    Begun p (.node v l r)

/-- What may be read below a root. -/
def Operands (p : α → Bool) (l r : BinaryTree α) : Prop :=
  l = .nil ∧ Begun p r ∨ Begun p l ∧ Full p r

theorem Full.begun {t : BinaryTree α} (h : Full p t) : Begun p t := by
  induction h with
  | operand hv => exact .operand hv
  | operator hv hl hr ihl ihr => exact .left hv ihl hr

theorem Begun.operands {v : α} {l r : BinaryTree α} (h : Begun p (.node v l r)) : Operands p l r := by
  cases h with
  | operand hv => exact Or.inl ⟨rfl, .nil⟩
  | right hv hr => exact Or.inl ⟨rfl, hr⟩
  | left hv hl hr => exact Or.inr ⟨hl, hr⟩

theorem Begun.leaf {v : α} {l r : BinaryTree α} (h : Begun p (.node v l r)) (hv : p v = false) :
    l = .nil ∧ r = .nil := by
  cases h with
  | operand _ => exact ⟨rfl, rfl⟩
  | right hop hr => exact absurd (hop.symm.trans hv) (by simp)
  | left hop hl hr => exact absurd (hop.symm.trans hv) (by simp)

theorem Operands.begun {l r : BinaryTree α} (h : Operands p l r) : Begun p l ∧ Begun p r := by
  rcases h with ⟨rfl, hr⟩ | ⟨hl, hr⟩
  · exact ⟨.nil, hr⟩
  · exact ⟨hl, hr.begun⟩

theorem exists_reading (p : α → Bool) (vs : List α) :
    (∃ t rest, Full p t ∧ vs = reading t ++ rest) ∨ ∃ t, Begun p t ∧ vs = reading t := by
  induction hn : vs.length using Nat.strongRecOn generalizing vs with
  | _ n ih =>
    cases vs with
    | nil => exact Or.inr ⟨.nil, .nil, rfl⟩
    | cons v vs =>
      rw [List.length_cons] at hn
      by_cases hv : p v = true
      · rcases ih vs.length (by omega) vs rfl with ⟨r, rest, hr, rfl⟩ | ⟨r, hr, rfl⟩
        · rw [List.length_append] at hn
          rcases ih rest.length (by omega) rest rfl with ⟨l, rest, hl, rfl⟩ | ⟨l, hl, rfl⟩
          · exact Or.inl ⟨.node v l r, rest, .operator hv hl hr, by simp [reading]⟩
          · exact Or.inr ⟨.node v l r, .left hv hl hr, rfl⟩
        · exact Or.inr ⟨.node v .nil r, .right hv hr, by simp [reading]⟩
      · exact Or.inl ⟨.node v .nil .nil, vs, .operand (by simpa using hv), rfl⟩

theorem exists_operands (p : α → Bool) (vs : List α) :
    ∃ l r rest, vs = reading r ++ reading l ++ rest ∧ Operands p l r ∧
      (rest ≠ [] → Full p l ∧ Full p r) := by
  rcases exists_reading p vs with ⟨r, rest, hr, rfl⟩ | ⟨r, hr, rfl⟩
  · rcases exists_reading p rest with ⟨l, rest, hl, rfl⟩ | ⟨l, hl, rfl⟩
    · exact ⟨l, r, rest, by simp, Or.inr ⟨hl.begun, hr⟩, fun _ => ⟨hl, hr⟩⟩
    · exact ⟨l, r, [], by simp, Or.inr ⟨hl, hr⟩, fun hne => absurd rfl hne⟩
  · exact ⟨.nil, r, [], by simp [reading], Or.inl ⟨rfl, hr⟩, fun hne => absurd rfl hne⟩

end Layout
