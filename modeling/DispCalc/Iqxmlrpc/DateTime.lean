import DispCalc.Iqxmlrpc.Except
import DispCalc.Numbers
import DispCalc.Parser.Code
import Mathlib.Data.List.Induction
import Mathlib.Data.List.TakeWhile
import Mathlib.Tactic.Positivity

/-!
# `Date_time`

The 17 characters of `dateTime.iso8601`, written from the fields of a `struct tm` and read back
into them. Only the constructor from a text tests the fields.
-/

namespace DispCalc.Iqxmlrpc

open DispCalc.Parser (isSpace)

/-! ## Digits of a fixed width -/

/-- A `strftime` field: the last `w` decimal digits. -/
def pad : Nat → Nat → List Char
  | 0, _ => []
  | w + 1, n => pad w (n / 10) ++ [(n % 10).digitChar]

def atoi (s : List Char) : Int :=
  match s.dropWhile isSpace with
  | '-' :: s => -(digitsValue (s.takeWhile Char.isDigit) : Int)
  | '+' :: s => digitsValue (s.takeWhile Char.isDigit)
  | s => digitsValue (s.takeWhile Char.isDigit)

theorem digit_table : ∀ n < 10, (Nat.digitChar n).isDigit = true ∧
    "0123456789T:".toList.contains (Nat.digitChar n) = true := by decide

theorem length_pad (w n : Nat) : (pad w n).length = w := by
  induction w generalizing n with
  | zero => rfl
  | succ w ih => rw [pad, List.length_append, ih, List.length_singleton]

theorem mem_pad {w n : Nat} {c : Char} (h : c ∈ pad w n) : ∃ d < 10, c = Nat.digitChar d := by
  induction w generalizing n with
  | zero => simp [pad] at h
  | succ w ih =>
    rw [pad, List.mem_append, List.mem_singleton] at h
    rcases h with h | h
    · exact ih h
    · exact ⟨n % 10, Nat.mod_lt _ (by omega), h⟩

theorem digitsValue_append (s : List Char) {d : Nat} (hd : d < 10) :
    digitsValue (s ++ [d.digitChar]) = 10 * digitsValue s + d := by
  unfold digitsValue
  rw [Nat.ofDigitChars_append, Nat.ofDigitChars_cons_digitChar_of_lt_ten hd, Nat.ofDigitChars_nil]

theorem digitsValue_pad (w n : Nat) : digitsValue (pad w n) = n % 10 ^ w := by
  induction w generalizing n with
  | zero => simp [pad, digitsValue, Nat.mod_one]
  | succ w ih =>
    have hsplit : n % 10 ^ (w + 1) = 10 * (n / 10 % 10 ^ w) + n % 10 := by
      rw [Nat.pow_succ', Nat.mod_mul]
      omega
    rw [pad, digitsValue_append _ (Nat.mod_lt _ (by omega)), ih, hsplit]

theorem atoi_digits {s : List Char} (h : ∀ c ∈ s, c.isDigit = true) : atoi s = digitsValue s := by
  have htake : s.takeWhile Char.isDigit = s := List.takeWhile_eq_self_iff.mpr (by simpa using h)
  cases s with
  | nil => rfl
  | cons c s =>
    have hc : c.isDigit = true := h c List.mem_cons_self
    have hspace : ¬ isSpace c = true := by
      intro hs
      simp only [isSpace, Bool.or_eq_true, decide_eq_true_eq] at hs
      rcases hs with ((((rfl | rfl) | rfl) | rfl) | rfl) | rfl <;> simp at hc
    unfold atoi
    rw [List.dropWhile_cons_of_neg hspace]
    split
    · rename_i heq
      obtain ⟨rfl, -⟩ := List.cons.inj heq
      simp at hc
    · rename_i heq
      obtain ⟨rfl, -⟩ := List.cons.inj heq
      simp at hc
    · rw [htake]

theorem atoi_pad {w n : Nat} (h : n < 10 ^ w) : atoi (pad w n) = n := by
  have hdigits : ∀ c ∈ pad w n, c.isDigit = true := by
    intro c hc
    obtain ⟨d, hd, rfl⟩ := mem_pad hc
    exact (digit_table d hd).1
  rw [atoi_digits hdigits, digitsValue_pad, Nat.mod_eq_of_lt h]

/-! ## The fields -/

/-- The fields of `struct tm` that the library uses. -/
@[ext] structure Tm where
  year : Int
  mon : Int
  mday : Int
  hour : Int
  min : Int
  sec : Int
  deriving DecidableEq, Repr

/-- The test at the end of the constructor from a text. -/
def Tm.InRange (tm : Tm) : Prop :=
  0 ≤ tm.year ∧ (0 ≤ tm.mon ∧ tm.mon ≤ 11) ∧ (1 ≤ tm.mday ∧ tm.mday ≤ 31) ∧
    (0 ≤ tm.hour ∧ tm.hour ≤ 23) ∧ (0 ≤ tm.min ∧ tm.min ≤ 59) ∧ 0 ≤ tm.sec ∧ tm.sec ≤ 61

instance (tm : Tm) : Decidable tm.InRange := inferInstanceAs (Decidable (_ ∧ _))

/-- `strftime` needs no more than its 18 characters either: the year has four digits. -/
def Tm.Normal (tm : Tm) : Prop := tm.InRange ∧ tm.year + 1900 < 10000

instance (tm : Tm) : Decidable tm.Normal := inferInstanceAs (Decidable (_ ∧ _))

/-- What `"%Y%m%dT%H:%M:%S"` stands for. -/
def Tm.iso8601 (tm : Tm) : List Char :=
  pad 4 (tm.year + 1900).toNat ++ pad 2 (tm.mon + 1).toNat ++ pad 2 tm.mday.toNat ++ ['T'] ++
    pad 2 tm.hour.toNat ++ [':'] ++ pad 2 tm.min.toNat ++ [':'] ++ pad 2 tm.sec.toNat

structure DateTime where
  tm : Tm
  deriving DecidableEq

namespace DateTime

def substr (s : List Char) (pos n : Nat) : List Char := (s.drop pos).take n

def fields (s : List Char) : Tm where
  year := atoi (substr s 0 4) - 1900
  mon := atoi (substr s 4 2) - 1
  mday := atoi (substr s 6 2)
  hour := atoi (substr s 9 2)
  min := atoi (substr s 12 2)
  sec := atoi (substr s 15 2)

theorem digitsValue_lt (s : List Char) (h : ∀ c ∈ s, c.isDigit = true) :
    digitsValue s < 10 ^ s.length := by
  induction s using List.reverseRecOn with
  | nil => simp [digitsValue]
  | append_singleton s c ih =>
    have hc : c.isDigit = true := h c (by simp)
    have hs := ih fun c hc => h c (by simp [hc])
    have hlt : c.toNat - '0'.toNat < 10 := by
      simp only [Char.isDigit, Bool.and_eq_true, decide_eq_true_eq] at hc
      have h9 : c.toNat ≤ 57 := hc.2
      have h0 : '0'.toNat = 48 := rfl
      omega
    unfold digitsValue at *
    rw [Nat.ofDigitChars_append, Nat.ofDigitChars_cons, Nat.ofDigitChars_nil, List.length_append,
      List.length_singleton, Nat.pow_succ]
    omega

theorem atoi_lt (s : List Char) : atoi s < 10 ^ s.length := by
  have hdigits : ∀ t : List Char, t.length ≤ s.length →
      (digitsValue (t.takeWhile Char.isDigit) : Int) < 10 ^ s.length := by
    intro t ht
    have hlen : (t.takeWhile Char.isDigit).length ≤ s.length :=
      (List.takeWhile_sublist _).length_le.trans ht
    have hlt := digitsValue_lt (t.takeWhile Char.isDigit) fun c hc => List.mem_takeWhile_imp hc
    exact_mod_cast hlt.trans_le (Nat.pow_le_pow_right (by omega) hlen)
  have hdrop : (s.dropWhile isSpace).length ≤ s.length := (List.dropWhile_sublist _).length_le
  unfold atoi
  split
  · have hpow : (0 : Int) < 10 ^ s.length := by positivity
    omega
  · rename_i t heq
    rw [heq, List.length_cons] at hdrop
    exact hdigits t (by omega)
  · exact hdigits _ hdrop

theorem year_lt (s : List Char) : (fields s).year + 1900 < 10000 := by
  have hlt := atoi_lt (substr s 0 4)
  have hlen : (substr s 0 4).length ≤ 4 := List.length_take_le _ _
  have hpow : (10 : Int) ^ (substr s 0 4).length ≤ 10 ^ 4 := pow_le_pow_right₀ (by omega) hlen
  unfold fields
  simp only
  omega

def ofString (s : List Char) : Except Exception DateTime :=
  if s.length ≠ 17 ∨ s[8]? ≠ some 'T' then .error .malformedIso8601
  else if !(substr s 0 16).all "0123456789T:".toList.contains then .error .malformedIso8601
  else if (fields s).InRange then .ok ⟨fields s⟩
  else .error .malformedIso8601

/-! ## Round trip -/

theorem substr_iso8601 (tm : Tm) :
    substr tm.iso8601 0 4 = pad 4 (tm.year + 1900).toNat ∧
      substr tm.iso8601 4 2 = pad 2 (tm.mon + 1).toNat ∧ substr tm.iso8601 6 2 = pad 2 tm.mday.toNat ∧
      substr tm.iso8601 9 2 = pad 2 tm.hour.toNat ∧ substr tm.iso8601 12 2 = pad 2 tm.min.toNat ∧
      substr tm.iso8601 15 2 = pad 2 tm.sec.toNat :=
  ⟨rfl, rfl, rfl, rfl, rfl, rfl⟩

theorem fields_iso8601 {tm : Tm} (h : tm.Normal) : fields tm.iso8601 = tm := by
  obtain ⟨hyear, hmon, hmday, hhour, hmin, hsec⟩ := substr_iso8601 tm
  obtain ⟨⟨h0, h1, h2, h3, h4, h5⟩, hlt⟩ := h
  have h4digits : (tm.year + 1900).toNat < 10 ^ 4 := by omega
  have h2digits : (tm.mon + 1).toNat < 10 ^ 2 ∧ tm.mday.toNat < 10 ^ 2 ∧ tm.hour.toNat < 10 ^ 2 ∧
      tm.min.toNat < 10 ^ 2 ∧ tm.sec.toNat < 10 ^ 2 := by omega
  obtain ⟨m1, m2, m3, m4, m5⟩ := h2digits
  unfold fields
  rw [hyear, hmon, hmday, hhour, hmin, hsec, atoi_pad h4digits, atoi_pad m1, atoi_pad m2, atoi_pad m3,
    atoi_pad m4, atoi_pad m5]
  ext <;> simp only <;> omega

theorem alphabet_iso8601 (tm : Tm) : tm.iso8601.all "0123456789T:".toList.contains = true := by
  have hpad : ∀ w n, (pad w n).all "0123456789T:".toList.contains = true := by
    intro w n
    refine List.all_eq_true.mpr fun c hc => ?_
    obtain ⟨k, hk, rfl⟩ := mem_pad hc
    exact (digit_table k hk).2
  simp only [Tm.iso8601, List.all_append, hpad]
  decide

theorem ofString_iso8601 {tm : Tm} (h : tm.Normal) : ofString tm.iso8601 = .ok ⟨tm⟩ := by
  have hlen : tm.iso8601.length = 17 := by simp [Tm.iso8601, length_pad]
  have ht : tm.iso8601[8]? = some 'T' := rfl
  have halpha : (substr tm.iso8601 0 16).all "0123456789T:".toList.contains = true := by
    refine List.all_eq_true.mpr fun c hc => ?_
    exact List.all_eq_true.mp (alphabet_iso8601 tm) c (List.mem_of_mem_take hc)
  unfold ofString
  rw [if_neg (by rw [hlen, ht]; simp), halpha, Bool.not_true, if_neg Bool.false_ne_true,
    fields_iso8601 h, if_pos h.1]

theorem normal_of_ofString {s : List Char} {d : DateTime} (h : ofString s = .ok d) : d.tm.Normal := by
  unfold ofString at h
  split at h
  · cases h
  · split at h
    · cases h
    · split at h
      · rename_i hrange
        obtain rfl := Except.ok.inj h
        exact ⟨hrange, year_lt s⟩
      · cases h

end DateTime

end DispCalc.Iqxmlrpc
