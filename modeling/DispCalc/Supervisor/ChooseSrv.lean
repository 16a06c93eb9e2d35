import DispCalc.Lib.Multimap
import DispCalc.Lib.Results
import DispCalc.Numbers
import Mathlib.Data.String.Basic

/-!
# `chooseSrv`

The map of servers and the choice of one of them for a task.
-/

namespace DispCalc

/-- `std::map<std::string, bool>`: servers with their state, each address once. -/
structure Servers where
  map : Multimap String Bool := {}
  unique : (map.entries.map Prod.fst).Nodup := by simp

namespace Servers

/-- `begin()` is 0 and `end()` the number of entries. -/
def size (servers : Servers) : Nat := servers.map.entries.length

/-- `iter->second`. -/
def second (servers : Servers) (iter : Nat) : Except Fault Bool :=
  match servers.map.entries[iter]? with
  | some entry => .ok entry.2
  | none => .error .outOfRange

/-- `iter->first`. -/
def first (servers : Servers) (iter : Nat) : Except Fault String :=
  match servers.map.entries[iter]? with
  | some entry => .ok entry.1
  | none => .error .outOfRange

/-- `insert` changes nothing when the address is there. -/
def insert (line : String) (result : Bool) (servers : Servers) : Servers :=
  match h : servers.map.find line with
  | some _ => servers
  | none =>
    { map := servers.map.insert line result
      unique := by
        rw [(servers.map.keys_insert line result).nodup_iff, List.nodup_cons]
        refine ⟨fun hline => ?_, servers.unique⟩
        obtain ⟨x, hx, rfl⟩ := List.mem_map.mp hline
        simpa using List.findFinIdx?_eq_none_iff.mp h x hx }

end Servers

namespace ClientControllerSupervisor

/-- `while(!iter->second && iter != end) ++iter`, with a bound that is never met. -/
def scanUp (servers : Servers) : Nat → Nat → Except Fault Nat
  | 0, _ => .error .unfinished
  | bound + 1, iter => do
    let available ← servers.second iter
    if !available && iter != servers.size then scanUp servers bound (iter + 1) else return iter

/-- `while(!iter->second && iter != begin) --iter`. -/
def scanDown (servers : Servers) : Nat → Except Fault Nat
  | 0 => do
    let _ ← servers.second 0
    return 0
  | iter + 1 => do
    let available ← servers.second (iter + 1)
    if !available then scanDown servers iter else return iter + 1

def forward (servers : Servers) (iter : Nat) : Except Fault Nat := do
  let available ← servers.second iter
  if !available then scanUp servers (servers.size + 1) iter else return iter

def backward (servers : Servers) (iter : Nat) : Except Fault Nat :=
  if iter = servers.size then scanDown servers iter
  else do
    let available ← servers.second iter
    if !available then scanDown servers iter else return iter

/-- The address and the messages to `ui`. `random` is the draw modulo the number of servers. -/
def chooseSrv (servers : Servers) (random : Nat) : Except Fault (String × List String) := do
  let iter ← forward servers random
  let iter ← backward servers iter
  let available ← servers.second iter
  let address ← servers.first iter
  return (address, if !available then ["Can't find server for calculation"] else [])

/-- The entry at the position is of an available server. -/
def Available (servers : Servers) (iter : Nat) : Prop := servers.second iter = .ok true

theorem second_of_lt {servers : Servers} {iter : Nat} (h : iter < servers.size) :
    ∃ available, servers.second iter = .ok available := by
  unfold Servers.size at h
  exact ⟨_, by rw [Servers.second, List.getElem?_eq_getElem h]⟩

theorem second_of_le {servers : Servers} {iter : Nat} (h : servers.size ≤ iter) :
    servers.second iter = .error .outOfRange := by
  unfold Servers.size at h
  rw [Servers.second, List.getElem?_eq_none h]

theorem Available.entry {servers : Servers} {iter : Nat} (h : Available servers iter) :
    ∃ address, servers.first iter = .ok address ∧ (address, true) ∈ servers.map.entries := by
  unfold Available Servers.second at h
  rcases hentry : servers.map.entries[iter]? with _ | ⟨address, available⟩
  · simp [hentry] at h
  · obtain rfl : available = true := by simpa [hentry] using h
    exact ⟨address, by simp [Servers.first, hentry], List.mem_of_getElem? hentry⟩

theorem Available.lt {servers : Servers} {iter : Nat} (h : Available servers iter) :
    iter < servers.size := by
  by_contra hge
  rw [Available, second_of_le (by omega)] at h
  cases h

theorem scanUp_of_available {servers : Servers} {bound iter j : Nat} (hle : iter ≤ j)
    (hj : Available servers j) (hbound : servers.size < iter + bound) :
    ∃ i, scanUp servers bound iter = .ok i ∧ Available servers i := by
  have hsize := hj.lt
  induction bound generalizing iter with
  | zero => omega
  | succ bound ih =>
    obtain ⟨available, hiter⟩ := second_of_lt (show iter < servers.size by omega)
    unfold scanUp
    rw [hiter, Except.ok_bind]
    rcases available with _ | _
    · have hne : iter ≠ j := by
        rintro rfl
        rw [Available, hiter] at hj
        cases hj
      have hnext := ih (show iter + 1 ≤ j by omega) (by omega)
      simpa [show iter ≠ servers.size by omega] using hnext
    · exact ⟨iter, by simp; rfl, hiter⟩

theorem scanUp_end {servers : Servers} {bound iter : Nat} (hle : iter ≤ servers.size)
    (hnone : ∀ j, iter ≤ j → ¬ Available servers j) (hbound : servers.size < iter + bound) :
    scanUp servers bound iter = .error .outOfRange := by
  induction bound generalizing iter with
  | zero => omega
  | succ bound ih =>
    unfold scanUp
    rcases Nat.lt_or_ge iter servers.size with hlt | hge
    · obtain ⟨available, hiter⟩ := second_of_lt hlt
      rw [hiter, Except.ok_bind]
      rcases available with _ | _
      · have hnext := ih (show iter + 1 ≤ servers.size by omega) (fun j hj => hnone j (by omega))
          (by omega)
        simpa [show iter ≠ servers.size by omega] using hnext
      · exact absurd hiter (hnone iter (Nat.le_refl _))
    · rw [second_of_le hge, Except.error_bind]

theorem chooseSrv_of_forward {servers : Servers} {random i : Nat}
    (hi : forward servers random = .ok i) (h : Available servers i) :
    ∃ address, chooseSrv servers random = .ok (address, []) ∧
      (address, true) ∈ servers.map.entries := by
  obtain ⟨address, hfirst, hmem⟩ := h.entry
  have hsecond : servers.second i = .ok true := h
  have hback : backward servers i = .ok i := by
    rw [backward, if_neg h.lt.ne, hsecond]
    rfl
  refine ⟨address, ?_, hmem⟩
  simp only [chooseSrv, hi, hback, hsecond, hfirst, Except.ok_bind]
  rfl

/-- **The choice** reads only entries of the map, and gives an available one, just when there is
one at the start position or behind it. -/
theorem chooseSrv_available_iff (servers : Servers) (random : Nat) :
    (∃ address, chooseSrv servers random = .ok (address, []) ∧
        (address, true) ∈ servers.map.entries) ↔
      ∃ j, random ≤ j ∧ Available servers j := by
  constructor
  · rintro ⟨address, hok, -⟩
    by_contra hnone
    push Not at hnone
    obtain ⟨i, hforward, -⟩ := Except.bind_eq_ok.mp hok
    obtain ⟨available, hrandom, hscan⟩ := Except.bind_eq_ok.mp hforward
    have hlt : random < servers.size := by
      by_contra hge
      simp [second_of_le (by omega : servers.size ≤ random)] at hrandom
    rcases available with _ | _
    · simp [scanUp_end (by omega) hnone (by omega : servers.size < random + (servers.size + 1))]
        at hscan
    · exact hnone random (Nat.le_refl _) hrandom
  · rintro ⟨j, hle, hj⟩
    obtain ⟨available, hrandom⟩ := second_of_lt (Nat.lt_of_le_of_lt hle hj.lt)
    rcases available with _ | _
    · obtain ⟨i, hscan, hi⟩ :=
        scanUp_of_available hle hj (by omega : servers.size < random + (servers.size + 1))
      exact chooseSrv_of_forward (by rw [forward, hrandom, Except.ok_bind]; exact hscan) hi
    · exact chooseSrv_of_forward (by rw [forward, hrandom]; rfl) hrandom

/-- The only available server comes before the start position. -/
theorem chooseSrv_reads_end : ¬ ∀ (servers : Servers) (random : Nat),
    (∃ address, (address, true) ∈ servers.map.entries) → random < servers.size →
      ∃ address, chooseSrv servers random = .ok (address, []) ∧
        (address, true) ∈ servers.map.entries := by
  intro h
  obtain ⟨address, hok, -⟩ := h ⟨⟨[("10.0.0.1", true), ("10.0.0.2", false)], by decide⟩, by decide⟩ 1
    ⟨"10.0.0.1", by simp⟩ (by decide)
  have herror : chooseSrv ⟨⟨[("10.0.0.1", true), ("10.0.0.2", false)], by decide⟩, by decide⟩ 1 =
      .error .outOfRange := by rfl
  rw [herror] at hok
  cases hok

end ClientControllerSupervisor

end DispCalc
