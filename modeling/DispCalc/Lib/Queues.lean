import Mathlib.Logic.Function.Basic

/-!
# Families of queues

One first-in first-out queue for each destination, and what a run of calls returns.
-/

abbrev Queues (δ μ : Type) := δ → List μ

namespace Queues

variable {δ μ : Type} [DecidableEq δ]

inductive Call (δ μ : Type) where
  | post (d : δ) (m : μ)
  | get (d : δ)

def post (d : δ) (m : μ) (q : Queues δ μ) : Queues δ μ := Function.update q d (q d ++ [m])

def get (d : δ) (q : Queues δ μ) : Option μ × Queues δ μ :=
  ((q d).head?, Function.update q d (q d).tail)

/-- The queues after the calls, and what the calls returned with its destination. -/
def run (q : Queues δ μ) : List (Call δ μ) → Queues δ μ × List (δ × μ)
  | [] => (q, [])
  | .post d m :: cs => (q.post d m).run cs
  | .get d :: cs =>
    let (q', returned) := (q.get d).2.run cs
    (q', ((q.get d).1.map fun m => (d, m)).toList ++ returned)

/-- The messages for one destination. -/
def sentTo (d : δ) (log : List (δ × μ)) : List μ := (log.filter fun x => x.1 = d).map Prod.snd

def posted (cs : List (Call δ μ)) : List (δ × μ) :=
  cs.filterMap fun
    | .post d m => some (d, m)
    | .get _ => none

/-- **First in, first out**, for each destination: what was there and what was posted comes
out in order, and the rest is still there. -/
theorem run_fifo (q : Queues δ μ) (cs : List (Call δ μ)) (d : δ) :
    sentTo d (q.run cs).2 ++ (q.run cs).1 d = q d ++ sentTo d (posted cs) := by
  induction cs generalizing q with
  | nil => simp [run, sentTo, posted]
  | cons c cs ih =>
    rcases c with ⟨d', m⟩ | d'
    · have hrest := ih (q.post d' m)
      rw [run, hrest]
      by_cases hd : d = d'
      · subst hd
        simp [post, posted, sentTo]
      · simp [post, posted, sentTo, Function.update_of_ne hd, Ne.symm hd]
    · have hrest := ih (q.get d').2
      rw [run]
      by_cases hd : d = d'
      · subst hd
        rcases hq : q d with _ | ⟨m, ms⟩
        · simpa [get, posted, sentTo, hq] using hrest
        · simpa [get, posted, sentTo, hq] using hrest
      · rcases hq : q d' with _ | ⟨m, ms⟩ <;>
          simpa [get, posted, sentTo, hq, Function.update_of_ne hd, Ne.symm hd] using hrest

end Queues
