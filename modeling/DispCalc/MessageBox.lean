import DispCalc.Lib.Multimap
import DispCalc.Lib.Queues
import Mathlib.Data.String.Basic

/-!
# `MessageBox`

The box through which the threads of the client talk to each other. Its one multimap holds
the messages of all destinations, and does for each of them what a queue of its own would do.
-/

namespace DispCalc

/-- `inbox_` and `inboxHistory_`. -/
structure MessageBox (T : Type) where
  inbox : Multimap String T := {}
  inboxHistory : List T := []

namespace MessageBox

variable {T θ : Type}

def postMessage (d : String) (m : T) (box : MessageBox T) : MessageBox T where
  inbox := box.inbox.insert d m
  inboxHistory := box.inboxHistory ++ [m]

/-- The result, what `*m` holds after the call, and the box. -/
def getMessage (d : String) (m : T) (box : MessageBox T) : Bool × T × MessageBox T :=
  if !box.inbox.entries.isEmpty then
    match box.inbox.find d with
    | some iter => (true, box.inbox.entries[iter].2, { box with inbox := box.inbox.erase iter })
    | none => (false, m, box)
  else (false, m, box)

inductive Call (T : Type) where
  | postMessage (d : String) (m : T)
  | getMessage (d : String) (m : T)

/-- Calls of any threads, in the order in which they get `messageInboxMutex_`. The second part of
the result is what `getMessage` returned, with its destination. -/
def run (box : MessageBox T) : List (θ × Call T) → MessageBox T × List (String × T)
  | [] => (box, [])
  | (_, .postMessage d m) :: cs => (box.postMessage d m).run cs
  | (_, .getMessage d m) :: cs =>
    let (result, m, box) := box.getMessage d m
    let (box, returned) := box.run cs
    (box, if result then (d, m) :: returned else returned)

/-! ## One queue for each destination -/

def queues (box : MessageBox T) : Queues String T := box.inbox.values

def Call.toQueues : Call T → Queues.Call String T
  | .postMessage d m => .post d m
  | .getMessage d _ => .get d

theorem queues_postMessage (d : String) (m : T) (box : MessageBox T) :
    (box.postMessage d m).queues = box.queues.post d m := by
  funext d'
  by_cases hd : d' = d
  · subst hd
    simp [queues, postMessage, Queues.post, Multimap.values_insert_self]
  · simp [queues, postMessage, Queues.post, Multimap.values_insert_ne hd, Function.update_of_ne hd]

theorem getMessage_empty {d : String} {box : MessageBox T} (h : box.queues d = []) (m : T) :
    box.getMessage d m = (false, m, box) := by
  unfold getMessage
  rw [Multimap.find_none.mpr h]
  split <;> rfl

theorem getMessage_front {d : String} {box : MessageBox T} {front : T} {rest : List T}
    (h : box.queues d = front :: rest) (m : T) :
    ∃ box', box.getMessage d m = (true, front, box') ∧ box'.queues = (box.queues.get d).2 ∧
      box'.inboxHistory = box.inboxHistory := by
  rcases hfind : box.inbox.find d with _ | iter
  · rw [queues, Multimap.find_none.mp hfind] at h
    cases h
  obtain ⟨hself, hne⟩ := Multimap.erase_find hfind
  obtain ⟨hfront, hrest⟩ := List.cons.inj (hself.symm.trans h)
  have hentries : box.inbox.entries.isEmpty = false := by
    rcases hempty : box.inbox.entries with _ | ⟨x, xs⟩
    · have := iter.isLt
      simp [hempty] at this
    · rfl
  refine ⟨{ box with inbox := box.inbox.erase iter }, ?_, ?_, rfl⟩
  · simpa [getMessage, hentries, hfind] using hfront
  · funext d'
    by_cases hd : d' = d
    · subst hd
      have htail : (box.queues d').tail = rest := by rw [h, List.tail_cons]
      simpa [queues, Queues.get] using hrest.trans htail.symm
    · simpa [queues, Queues.get, Function.update_of_ne hd] using hne d' hd

theorem run_queues (box : MessageBox T) (cs : List (θ × Call T)) :
    box.queues.run (cs.map fun c => c.2.toQueues) = ((box.run cs).1.queues, (box.run cs).2) := by
  induction cs generalizing box with
  | nil => rfl
  | cons c cs ih =>
    rcases c with ⟨thread, ⟨d, m⟩ | ⟨d, m⟩⟩
    · rw [List.map_cons, Call.toQueues, Queues.run, ← queues_postMessage, ih]
      rfl
    · rw [List.map_cons, Call.toQueues, Queues.run, run]
      rcases hd : box.queues d with _ | ⟨front, rest⟩
      · have hget : box.queues.get d = (none, box.queues) := by
          simp [Queues.get, hd]
        simp [getMessage_empty hd, hget, ih]
      · obtain ⟨box', hbox', hqueues, -⟩ := getMessage_front hd m
        have hget : (box.queues.get d).1 = some front := by simp [Queues.get, hd]
        simp [hbox', hget, ← hqueues, ih]

theorem run_history (box : MessageBox T) (cs : List (θ × Call T)) :
    (box.run cs).1.inboxHistory =
      box.inboxHistory ++ (Queues.posted (cs.map fun c => c.2.toQueues)).map Prod.snd := by
  induction cs generalizing box with
  | nil => simp [run, Queues.posted]
  | cons c cs ih =>
    rcases c with ⟨thread, ⟨d, m⟩ | ⟨d, m⟩⟩
    · rw [run, ih]
      simp [postMessage, Queues.posted, Call.toQueues]
    · rw [run]
      rcases hd : box.queues d with _ | ⟨front, rest⟩
      · simp [getMessage_empty hd, ih, Queues.posted, Call.toQueues]
      · obtain ⟨box', hbox', -, hhistory⟩ := getMessage_front hd m
        simp [hbox', ih, hhistory, Queues.posted, Call.toQueues]

/-- What was posted, with its destination, in the order of the calls. -/
def posted (cs : List (θ × Call T)) : List (String × T) :=
  cs.filterMap fun c =>
    match c.2 with
    | .postMessage d m => some (d, m)
    | .getMessage _ _ => none

theorem posted_toQueues (cs : List (θ × Call T)) :
    Queues.posted (cs.map fun c => c.2.toQueues) = posted cs := by
  unfold Queues.posted posted
  rw [List.filterMap_map]
  congr 1
  funext ⟨thread, c⟩
  rcases c <;> rfl

/-- **A family of queues.** After any calls of any threads, the messages returned for a
destination and those still in the box for it are the ones that were posted to it, in order;
`getMessage` gives up just when none is outstanding; and the history is that of all posts. -/
theorem message_box_fifo (cs : List (θ × Call T)) (d : String) :
    let (box, returned) := ({} : MessageBox T).run cs
    Queues.sentTo d returned ++ box.inbox.values d = Queues.sentTo d (posted cs) ∧
      (∀ m, ((box.getMessage d m).1 = false ↔
          Queues.sentTo d returned = Queues.sentTo d (posted cs)) ∧
        ((box.getMessage d m).1 = false → box.getMessage d m = (false, m, box))) ∧
      box.inboxHistory = (posted cs).map Prod.snd := by
  have hfifo := Queues.run_fifo ({} : MessageBox T).queues (cs.map fun c => c.2.toQueues) d
  have hhistory := run_history ({} : MessageBox T) cs
  rw [run_queues, posted_toQueues] at hfifo
  rw [posted_toQueues] at hhistory
  have hnil : ({} : MessageBox T).queues d = [] := rfl
  rw [hnil, List.nil_append] at hfifo
  rcases hrun : ({} : MessageBox T).run cs with ⟨box, returned⟩
  rw [hrun] at hfifo hhistory
  change _ ++ box.queues d = _ at hfifo
  refine ⟨hfifo, fun m => ?_, by simpa using hhistory⟩
  rcases hd : box.queues d with _ | ⟨front, rest⟩
  · rw [getMessage_empty hd, ← hfifo, hd]
    simp
  · obtain ⟨box', hbox', -⟩ := getMessage_front hd m
    rw [hbox', ← hfifo, hd]
    simp

end MessageBox

end DispCalc
