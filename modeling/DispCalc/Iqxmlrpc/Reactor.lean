import Mathlib.Data.List.Nodup

/-!
# `Reactor`

The table of the connections that the server polls, each with the events that it polls them for.
-/

namespace DispCalc.Iqxmlrpc

def INPUT : Nat := 1

def OUTPUT : Nat := 2

/-- `handlers_states`, with the descriptor and the mask of each handler. No descriptor is there twice. -/
structure Reactor where
  handlersStates : List (Nat × Nat) := []
  distinct : (handlersStates.map Prod.fst).Nodup := by simp

namespace Reactor

/-- What a descriptor is polled for, if it is registered. -/
def mask? (r : Reactor) (fd : Nat) : Option Nat := r.handlersStates.lookup fd

theorem mask?_isSome {r : Reactor} {fd : Nat} :
    (r.mask? fd).isSome = true ↔ fd ∈ r.handlersStates.map Prod.fst := by
  simp [mask?]

theorem lookup_cons (fd mask : Nat) (hs : List (Nat × Nat)) (fd' : Nat) :
    ((fd, mask) :: hs).lookup fd' = if fd' = fd then some mask else hs.lookup fd' := by
  rw [List.lookup_cons]
  by_cases h : fd' = fd
  · rw [if_pos h, beq_iff_eq.mpr h]
  · rw [if_neg h, beq_eq_false_iff_ne.mpr h]

theorem map_fst_update (hs : List (Nat × Nat)) (fd : Nat) (f : Nat → Nat) :
    (hs.map fun e => if e.1 = fd then (e.1, f e.2) else e).map Prod.fst = hs.map Prod.fst := by
  rw [List.map_map]
  refine List.map_congr_left fun e _ => ?_
  simp only [Function.comp_apply]
  split <;> rfl

theorem lookup_update (hs : List (Nat × Nat)) (fd : Nat) (f : Nat → Nat) (fd' : Nat) :
    (hs.map fun e => if e.1 = fd then (e.1, f e.2) else e).lookup fd' =
      if fd' = fd then (hs.lookup fd').map f else hs.lookup fd' := by
  induction hs with
  | nil => simp
  | cons e hs ih =>
    obtain ⟨k, v⟩ := e
    rw [List.map_cons, lookup_cons]
    by_cases hk : k = fd
    · rw [if_pos hk, lookup_cons, ih, hk]
      by_cases hfd : fd' = fd <;> simp [hfd]
    · rw [if_neg hk, lookup_cons, ih]
      by_cases hfd : fd' = k <;> simp [hfd, hk]

theorem lookup_erase (hs : List (Nat × Nat)) (fd fd' : Nat) :
    (hs.filter fun e => e.1 ≠ fd).lookup fd' = if fd' = fd then none else hs.lookup fd' := by
  induction hs with
  | nil => simp
  | cons e hs ih =>
    obtain ⟨k, v⟩ := e
    rw [lookup_cons]
    by_cases hk : k = fd
    · rw [List.filter_cons_of_neg (by simp [hk]), ih]
      by_cases hfd : fd' = fd <;> simp [hfd, hk]
    · rw [List.filter_cons_of_pos (by simp [hk]), lookup_cons, ih]
      by_cases hfd : fd' = k <;> simp [hfd, hk]

theorem mask?_of_mem {r : Reactor} {fd mask : Nat} (h : (fd, mask) ∈ r.handlersStates) :
    r.mask? fd = some mask := by
  obtain ⟨states, distinct⟩ := r
  unfold mask?
  simp only at h ⊢
  induction states with
  | nil => cases h
  | cons state states ih =>
    obtain ⟨k, v⟩ := state
    rw [List.map_cons, List.nodup_cons] at distinct
    rw [lookup_cons]
    rcases List.mem_cons.mp h with heq | hmem
    · obtain ⟨rfl, rfl⟩ := Prod.mk.inj heq
      exact if_pos rfl
    · have hne : fd ≠ k := by
        rintro rfl
        exact distinct.1 (List.mem_map.mpr ⟨_, hmem, rfl⟩)
      rw [if_neg hne, ih distinct.2 hmem]

/-- `|=` and `&=` on the mask of a handler. -/
def setMask (r : Reactor) (fd : Nat) (f : Nat → Nat) : Reactor where
  handlersStates := r.handlersStates.map fun e => if e.1 = fd then (e.1, f e.2) else e
  distinct := by
    rw [map_fst_update]
    exact r.distinct

theorem mask?_setMask (r : Reactor) (fd : Nat) (f : Nat → Nat) (fd' : Nat) :
    (r.setMask fd f).mask? fd' = if fd' = fd then (r.mask? fd').map f else r.mask? fd' := lookup_update _ _ _ _

/-- `unregister_handler(eh)`. -/
def unregister (r : Reactor) (fd : Nat) : Reactor where
  handlersStates := r.handlersStates.filter fun e => e.1 ≠ fd
  distinct := (List.filter_sublist.map Prod.fst).nodup r.distinct

/-- `register_handler(eh, mask)`. -/
def registerHandler (r : Reactor) (fd mask : Nat) : Reactor :=
  if h : (r.mask? fd).isSome then r.setMask fd (· ||| mask)
  else
    { handlersStates := r.handlersStates ++ [(fd, mask)]
      distinct := by
        rw [List.map_append, List.map_singleton]
        exact r.distinct.append (List.nodup_singleton fd)
          (List.disjoint_singleton.mpr fun hmem => h (mask?_isSome.mpr hmem)) }

/-- The operator `!` of C. -/
def lnot (n : Nat) : Nat := if n = 0 then 1 else 0

/-- `unregister_handler(eh, mask)`. -/
def unregisterHandler (r : Reactor) (fd mask : Nat) : Reactor :=
  match r.mask? fd with
  | none => r
  | some m =>
    let newmask := m &&& lnot mask
    if newmask = 0 then r.unregister fd else r.setMask fd fun _ => newmask

theorem mask?_register (r : Reactor) (fd mask fd' : Nat) : (r.registerHandler fd mask).mask? fd' =
    if fd' = fd then some ((r.mask? fd).getD 0 ||| mask) else r.mask? fd' := by
  unfold registerHandler
  split
  · rename_i h
    obtain ⟨m, hm⟩ := Option.isSome_iff_exists.mp h
    rw [mask?_setMask]
    by_cases hfd : fd' = fd <;> simp [hfd, hm]
  · rename_i h
    have hnone : r.handlersStates.lookup fd = none := Option.not_isSome_iff_eq_none.mp h
    rw [mask?, List.lookup_append, lookup_cons]
    by_cases hfd : fd' = fd <;> simp [hfd, hnone, mask?]

theorem mask?_unregister (r : Reactor) (fd fd' : Nat) :
    (r.unregister fd).mask? fd' = if fd' = fd then none else r.mask? fd' := lookup_erase _ _ _

/-- The operator is `!` and not `~`: a handler that is unregistered for one event is gone. -/
theorem mask?_unregisterHandler (r : Reactor) (fd fd' : Nat) {mask : Nat} (h : mask ≠ 0) :
    (r.unregisterHandler fd mask).mask? fd' = if fd' = fd then none else r.mask? fd' := by
  unfold unregisterHandler
  split
  · rename_i hnone
    by_cases hfd : fd' = fd
    · rw [if_pos hfd, hfd, hnone]
    · rw [if_neg hfd]
  · simp only [lnot, h, if_false, Nat.and_zero, if_true]
    exact mask?_unregister r fd fd'

end Reactor

end DispCalc.Iqxmlrpc
