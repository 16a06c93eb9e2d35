import DispCalc.Supervisor.Code
import Mathlib.Data.List.Basic

/-!
# What one step of a supervisor can do

A statement of the loop, or the end of one task. Every invariant is derived from these.
-/

namespace DispCalc

def Point.thread {ι : Type} : Point ι → Option ι
  | .created c | .inserted c | .pushed c => some c
  | _ => none

/-- 1 once the entry of the current element is pushed. -/
def Point.ahead {ι : Type} : Point ι → Nat
  | .pushed _ | .next => 1
  | _ => 0

/-- 1 inside the body of the loop. -/
def Point.inside {ι : Type} : Point ι → Nat
  | .test => 0
  | _ => 1

namespace ClientControllerSupervisor

variable {ι : Type}

theorem running_iff {st : ClientControllerSupervisor ι} {c : ι} :
    st.running c = true ↔ ∃ t, st.tasks c = some t ∧ t.ending = none := by
  unfold running
  rcases st.tasks c with _ | t <;> simp

/-! ## The loop -/

variable [DecidableEq ι]

theorem createThread_cases {st st' : ClientControllerSupervisor ι} {c : ι}
    (h : st.createThread c = some st') :
    ∃ t, st.point = .test ∧ st.chunkedTree[st.it]? = some t ∧ t.height ≠ 0 ∧ st.tasks c = none ∧
      st' = { st with
        tasks := Function.update st.tasks c (some { expr := t.toStack 1, chunk := st.it })
        point := .created c } := by
  unfold createThread at h
  split at h
  · rename_i t hpoint ht
    split at h
    · cases h
    · rename_i hnew
      simp only [not_or, Bool.not_eq_true, Option.isSome_eq_false_iff, Option.isNone_iff_eq_none] at hnew
      exact ⟨t, hpoint, ht, hnew.1, hnew.2, (Option.some.inj h).symm⟩
  · cases h

/-- A statement of the loop other than `create_thread`. -/
inductive Statement (st : ClientControllerSupervisor ι) : ClientControllerSupervisor ι → Prop where
  | copy (t : ExprTree) (hpoint : st.point = .test) (ht : st.chunkedTree[st.it]? = some t)
      (hheight : t.height = 0) :
      Statement st { st with
        resultStack := st.resultStack ++ [⟨none, some t.getParent⟩], point := .next }
  | insert (c : ι) (hpoint : st.point = .created c) :
      Statement st { st with computers := st.computers.insert c, point := .inserted c }
  | push (c : ι) (hpoint : st.point = .inserted c) :
      Statement st { st with
        resultStack := st.resultStack ++ [⟨some c, none⟩], point := .pushed c }
  | setIdx (c : ι) (hpoint : st.point = .pushed c) :
      Statement st { st.setIdx c with point := .next }
  | next (hpoint : st.point = .next) :
      Statement st { st with it := st.it + 1, idx := st.idx + 1, point := .test }

theorem statement_cases {st st' : ClientControllerSupervisor ι} (h : st.statement = some st') :
    Statement st st' := by
  unfold statement at h
  split at h
  · rename_i hpoint
    split at h
    · rename_i t ht
      split at h
      · rename_i hheight
        rw [← Option.some.inj h]
        exact .copy t hpoint ht hheight
      · cases h
    · cases h
  · rename_i c hpoint
    rw [← Option.some.inj h]
    exact .insert c hpoint
  · rename_i c hpoint
    rw [← Option.some.inj h]
    exact .push c hpoint
  · rename_i c hpoint
    rw [← Option.some.inj h]
    exact .setIdx c hpoint
  · rename_i hpoint
    rw [← Option.some.inj h]
    exact .next hpoint

/-! ## The end of a task -/

/-- What the end of the task of `c` leaves alone, and what it does to the tasks. -/
structure Ends (st st' : ClientControllerSupervisor ι) (c : ι) (ending : Ending) : Prop where
  chunkedTree : st'.chunkedTree = st.chunkedTree
  it : st'.it = st.it
  idx : st'.idx = st.idx
  point : st'.point = st.point
  running : ∃ t, st.tasks c = some t ∧ t.ending = none
  tasks : ∀ d, ∃ deleted, (ending ≠ .networkError → deleted = false) ∧
    st'.tasks d = (st.tasks d).map fun t =>
      { t with
        deleted := t.deleted || deleted
        ending := if d = c then some ending else t.ending }

/-- What `notify` does with the result of task `c`. -/
inductive Delivery (st st' : ClientControllerSupervisor ι) (c : ι) (result : String) (idx : Nat) :
    Prop where
  | outside (hidx : st.resultStack[idx]? = none) (hres : st'.resultStack = st.resultStack)
      (hfinals : st'.finals = st.finals) (hout : st'.outside = true)
  | wrongId (r : ThreadResult ι) (hidx : st.resultStack[idx]? = some r)
      (hid : r.threadId ≠ some c) (hres : st'.resultStack = st.resultStack)
      (hfinals : st'.finals = st.finals) (hout : st'.outside = st.outside)
  | own (r : ThreadResult ι) (hidx : st.resultStack[idx]? = some r) (hid : r.threadId = some c)
      (hres : st'.resultStack = st.resultStack.set idx ⟨some c, some result⟩)
      (hfinals : st'.finals = if st'.isResultComplete = true then
        st.finals ++ [⟨st'.resultStack, countStack st'.resultStack >>= Computer.compute⟩]
        else st.finals)
      (hout : st'.outside = st.outside)

theorem ends_finish {st : ClientControllerSupervisor ι} {c : ι} (h : st.running c = true)
    (ending : Ending) : Ends st (st.finish c ending) c ending := by
  refine ⟨rfl, rfl, rfl, rfl, running_iff.mp h, fun d => ⟨false, fun _ => rfl, ?_⟩⟩
  by_cases hd : d = c
  · subst hd
    simp [finish]
  · simp [finish, hd]

theorem notify_delivery (result : String) (c : ι) (idx : Nat) (st : ClientControllerSupervisor ι) :
    Delivery st (st.notify result c idx) c result idx := by
  unfold notify
  rcases hidx : st.resultStack[idx]? with _ | r
  · exact .outside hidx rfl rfl rfl
  · by_cases hid : r.threadId = some c
    · obtain ⟨threadId, old⟩ := r
      obtain rfl : threadId = some c := hid
      simp only [ne_eq, not_true_eq_false, if_false]
      split
      · rename_i hcomplete
        exact .own _ hidx rfl rfl (if_pos hcomplete).symm rfl
      · rename_i hcomplete
        exact .own _ hidx rfl rfl (if_neg hcomplete).symm rfl
    · simp only [ne_eq, hid, not_false_eq_true, if_true]
      exact .wrongId r hidx hid rfl rfl rfl

theorem notify_frame (result : String) (c : ι) (idx : Nat) (st : ClientControllerSupervisor ι) :
    (st.notify result c idx).chunkedTree = st.chunkedTree ∧
    (st.notify result c idx).it = st.it ∧ (st.notify result c idx).idx = st.idx ∧
    (st.notify result c idx).point = st.point ∧ (st.notify result c idx).tasks = st.tasks ∧
    (st.notify result c idx).computers = st.computers ∧
    (st.notify result c idx).aborts = st.aborts := by
  unfold notify
  split
  · exact ⟨rfl, rfl, rfl, rfl, rfl, rfl, rfl⟩
  · split
    · exact ⟨rfl, rfl, rfl, rfl, rfl, rfl, rfl⟩
    · dsimp only
      split <;> exact ⟨rfl, rfl, rfl, rfl, rfl, rfl, rfl⟩

variable [ToString ι]

theorem result_cases {st st' : ClientControllerSupervisor ι} {c : ι}
    {value : { i : Int // InInt i }} {idx : Nat} (h : st.step (.result c value idx) = some st') :
    Ends st st' c .result ∧ Delivery st st' c (toString value.1) idx ∧
      st'.computers = st.computers ∧ st'.aborts = st.aborts ∧
      ∀ t, st.tasks c = some t → t.mayGetIdx idx = true := by
  simp only [step] at h
  split at h
  · rename_i hguard
    simp only [Bool.and_eq_true] at hguard
    have hends := ends_finish hguard.1 .result
    obtain ⟨hc, hit, hi, hp, ht, hcomp, hab⟩ := notify_frame (toString value.1) c idx
      ((st.finish c .result).postMessage
        ("Thread(" ++ toString c ++ "): wynik " ++ toString value.1))
    have hd := notify_delivery (toString value.1) c idx
      ((st.finish c .result).postMessage
        ("Thread(" ++ toString c ++ "): wynik " ++ toString value.1))
    rw [Option.some.inj h] at hc hit hi hp ht hcomp hab hd
    refine ⟨⟨hc, hit, hi, hp, hends.running, fun d => ?_⟩, ?_, hcomp, hab, fun t hguardt => ?_⟩
    · rw [ht]
      exact hends.tasks d
    · rcases hd with ⟨h1, h2, h3, h4⟩ | ⟨r, h1, h2, h3, h4, h5⟩ | ⟨r, h1, h2, h3, h4, h5⟩
      · exact .outside h1 h2 h3 h4
      · exact .wrongId r h1 h2 h3 h4 h5
      · exact .own r h1 h2 h3 h4 h5
    · simpa [hguardt] using hguard.2
  · cases h

theorem networkError_cases {st st' : ClientControllerSupervisor ι} {c : ι}
    (h : st.step (.networkError c) = some st') :
    Ends st st' c .networkError ∧ st'.resultStack = st.resultStack ∧ st'.finals = st.finals ∧
      st'.outside = st.outside ∧ st'.computers = [] ∧ st'.aborts = st.aborts + 1 := by
  simp only [step] at h
  split at h
  · rename_i hrun
    rw [← Option.some.inj h]
    refine ⟨⟨rfl, rfl, rfl, rfl, running_iff.mp hrun, fun d =>
      ⟨decide (d ∈ st.computers), fun hne => absurd rfl hne, ?_⟩⟩,
      rfl, rfl, rfl, rfl, rfl⟩
    by_cases hd : d = c
    · subst hd
      rcases htask : st.tasks d with _ | t
      · simp [abort, finish, htask]
      · by_cases hmem : d ∈ st.computers <;> simp [abort, finish, hmem, htask]
    · rcases htask : st.tasks d with _ | t
      · simp [abort, finish, hd, htask]
      · by_cases hmem : d ∈ st.computers <;> simp [abort, finish, hd, hmem, htask]
  · cases h

theorem otherError_cases {st st' : ClientControllerSupervisor ι} {c : ι}
    (h : st.step (.otherError c) = some st') :
    Ends st st' c .otherError ∧ st'.resultStack = st.resultStack ∧ st'.finals = st.finals ∧
      st'.outside = st.outside ∧ st'.computers = st.computers ∧ st'.aborts = st.aborts := by
  simp only [step] at h
  split at h
  · rename_i hrun
    rw [← Option.some.inj h]
    have hends := ends_finish hrun .otherError
    exact ⟨⟨rfl, rfl, rfl, rfl, hends.running, hends.tasks⟩, rfl, rfl, rfl, rfl, rfl⟩
  · cases h

end ClientControllerSupervisor

end DispCalc
