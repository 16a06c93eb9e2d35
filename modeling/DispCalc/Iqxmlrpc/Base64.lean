import DispCalc.Iqxmlrpc.Except
import DispCalc.Parser.Code
import Mathlib.Tactic.IntervalCases

/-!
# `Binary_data`

The base64 codec of the XML-RPC library. Three bytes become four characters, and a line break
comes in wherever the text so far has a multiple of 64 characters. The decoder skips white space.
-/

namespace DispCalc.Iqxmlrpc

open DispCalc.Parser (isSpace)

abbrev Byte := BitVec 8

namespace BinaryData

/-! ## The encoder -/

def base64Alpha : List Char :=
  "ABCDEFGHIJKLMNOPQRSTUVWXYZabcdefghijklmnopqrstuvwxyz0123456789+/".toList

def charsInLine : Nat := 64

def addBase64Char (idx : BitVec 32) (base64 : List Char) : List Char :=
  (if !base64.isEmpty && base64.length % charsInLine = 0 then base64 ++ ['\n'] else base64) ++
    [base64Alpha.getD idx.toNat '\x00']

/-- `d[i]`, a signed `char`, as an operand of the bit operations. -/
def widen (d : Byte) : BitVec 32 := d.signExtend 32

/-- The loop of `encode`, three bytes at a time. -/
def encodeFrom : List Byte → List Char → List Char
  | [], base64 => base64
  | [a], base64 =>
    let c := 0xff0000#32 &&& widen a <<< 16
    addBase64Char ((c >>> 12) &&& 0x3f#32) (addBase64Char ((c >>> 18) &&& 0x3f#32) base64) ++ ['=', '=']
  | [a, b], base64 =>
    let c := 0xff0000#32 &&& widen a <<< 16
    let base64 := addBase64Char ((c >>> 18) &&& 0x3f#32) base64
    let c := c ||| 0x00ff00#32 &&& widen b <<< 8
    addBase64Char ((c >>> 6) &&& 0x3f#32) (addBase64Char ((c >>> 12) &&& 0x3f#32) base64) ++ ['=']
  | a :: b :: d :: data, base64 =>
    let c := 0xff0000#32 &&& widen a <<< 16
    let base64 := addBase64Char ((c >>> 18) &&& 0x3f#32) base64
    let c := c ||| 0x00ff00#32 &&& widen b <<< 8
    let base64 := addBase64Char ((c >>> 12) &&& 0x3f#32) base64
    let c := c ||| 0x0000ff#32 &&& widen d
    encodeFrom data (addBase64Char (c &&& 0x3f#32) (addBase64Char ((c >>> 6) &&& 0x3f#32) base64))

def encode (data : List Byte) : List Char := encodeFrom data []

/-! ## The decoder -/

/-- `End_of_data` is thrown at a `=`, and no other function lets it out. -/
inductive Idx where
  | idx (i : BitVec 32)
  | endOfData
  | malformed
  deriving DecidableEq, Repr

def getIdx (c : Char) : Idx :=
  if c = '=' then .endOfData
  else if 'A' ≤ c ∧ c ≤ 'Z' then .idx (BitVec.ofNat 32 (c.toNat - 'A'.toNat))
  else if 'a' ≤ c ∧ c ≤ 'z' then .idx (BitVec.ofNat 32 (26 + c.toNat - 'a'.toNat))
  else if '0' ≤ c ∧ c ≤ '9' then .idx (BitVec.ofNat 32 (52 + c.toNat - '0'.toNat))
  else if c = '+' then .idx 62
  else if c = '/' then .idx 63
  else .malformed

/-- The bytes up to the first character that ends the data. -/
def decodeFour (c1 c2 c3 c4 : Char) : Except Exception (List Byte) :=
  if c1 = '=' ∨ c2 = '=' then .error .malformedBase64
  else
    match getIdx c1, getIdx c2 with
    | .idx i1, .idx i2 =>
      let d1 := ((i1 <<< 6 ||| i2) >>> 4 &&& 0xff#32).setWidth 8
      match getIdx c3 with
      | .endOfData => .ok [d1]
      | .malformed => .error .malformedBase64
      | .idx i3 =>
        let d2 := ((i2 <<< 6 ||| i3) >>> 2).setWidth 8
        match getIdx c4 with
        | .endOfData => .ok [d1, d2]
        | .malformed => .error .malformedBase64
        | .idx i4 => .ok [d1, d2, ((i3 <<< 6 ||| i4) &&& 0xff#32).setWidth 8]
    | _, _ => .error .malformedBase64

/-- The loop of `decode`: `four` and `data`, then one character. -/
def decodeStep (st : List Char × List Byte) (c : Char) : Except Exception (List Char × List Byte) :=
  if isSpace c then .ok st
  else
    match st.1 ++ [c] with
    | [c1, c2, c3, c4] => (decodeFour c1 c2 c3 c4).map fun bytes => ([], st.2 ++ bytes)
    | four => .ok (four, st.2)

def decode (base64 : List Char) : Except Exception (List Byte) := do
  let (four, data) ← base64.foldlM decodeStep ([], [])
  if four.isEmpty then return data else .error .malformedBase64

/-! ## Line breaks -/

/-- The characters that the decoder looks at. -/
def solid (text : List Char) : List Char := text.filter fun c => !isSpace c

theorem foldlM_solid (text : List Char) (st : List Char × List Byte) :
    text.foldlM decodeStep st = (solid text).foldlM decodeStep st := by
  induction text generalizing st with
  | nil => rfl
  | cons c text ih =>
    by_cases hc : isSpace c = true
    · have hskip : decodeStep st c = .ok st := if_pos hc
      rw [List.foldlM_cons, hskip, Except.ok_bind, ih, solid, solid, List.filter_cons_of_neg (by simp [hc])]
    · have hsolid : solid (c :: text) = c :: solid text := List.filter_cons_of_pos (by simp [hc])
      rw [hsolid, List.foldlM_cons, List.foldlM_cons]
      congr 1
      funext st'
      exact ih st'

theorem solid_append (s t : List Char) : solid (s ++ t) = solid s ++ solid t := List.filter_append ..

/-! ## One group -/

def alpha (idx : BitVec 32) : Char := base64Alpha.getD idx.toNat '\x00'

theorem alpha_table : ∀ i < 64, getIdx (alpha (BitVec.ofNat 32 i)) = .idx (BitVec.ofNat 32 i) ∧
    alpha (BitVec.ofNat 32 i) ≠ '=' ∧ isSpace (alpha (BitVec.ofNat 32 i)) = false := by
  decide +kernel

/-- An index that `encode` has cut to six bits. -/
def sextet (c : BitVec 32) : BitVec 32 := c &&& 0x3f#32

theorem alpha_sextet (c : BitVec 32) : getIdx (alpha (sextet c)) = .idx (sextet c) ∧
    alpha (sextet c) ≠ '=' ∧ isSpace (alpha (sextet c)) = false := by
  have hlt : (sextet c).toNat < 64 := by
    rw [sextet, BitVec.toNat_and]
    exact lt_of_le_of_lt Nat.and_le_right (by decide)
  have htable := alpha_table _ hlt
  rwa [BitVec.ofNat_toNat, BitVec.setWidth_eq] at htable

/-- The three bytes of `c`, of which those not yet read are 0. -/
def bits (a : Byte) (x y : BitVec 32) : BitVec 32 :=
  0xff0000#32 &&& widen a <<< 16 ||| 0x00ff00#32 &&& x ||| 0x0000ff#32 &&& y

-- Bit by bit, so that no solver is needed.
theorem first_byte (a : Byte) (x : BitVec 32) :
    ((sextet (bits a 0 0 >>> 18) <<< 6 ||| sextet (bits a x 0 >>> 12)) >>> 4 &&& 0xff#32).setWidth 8 = a := by
  ext i hi
  interval_cases i <;> simp [sextet, widen, bits, BitVec.getElem_signExtend]

theorem second_byte (a b : Byte) (y : BitVec 32) :
    ((sextet (bits a (widen b <<< 8) 0 >>> 12) <<< 6 |||
      sextet (bits a (widen b <<< 8) y >>> 6)) >>> 2).setWidth 8 = b := by
  ext i hi
  interval_cases i <;> simp [sextet, widen, bits, BitVec.getElem_signExtend]

theorem third_byte (a d : Byte) (x : BitVec 32) :
    ((sextet (bits a x (widen d) >>> 6) <<< 6 ||| sextet (bits a x (widen d))) &&& 0xff#32).setWidth 8 = d := by
  ext i hi
  interval_cases i <;> simp [sextet, widen, bits, BitVec.getElem_signExtend]

/-- The text without line breaks. -/
def plain : List Byte → List Char
  | [] => []
  | [a] => [alpha (sextet (bits a 0 0 >>> 18)), alpha (sextet (bits a 0 0 >>> 12)), '=', '=']
  | [a, b] =>
    [alpha (sextet (bits a 0 0 >>> 18)), alpha (sextet (bits a (widen b <<< 8) 0 >>> 12)),
      alpha (sextet (bits a (widen b <<< 8) 0 >>> 6)), '=']
  | a :: b :: d :: data =>
    alpha (sextet (bits a 0 0 >>> 18)) :: alpha (sextet (bits a (widen b <<< 8) 0 >>> 12)) ::
      alpha (sextet (bits a (widen b <<< 8) (widen d) >>> 6)) ::
      alpha (sextet (bits a (widen b <<< 8) (widen d))) :: plain data

theorem solid_addBase64Char (c : BitVec 32) (base64 : List Char) :
    solid (addBase64Char (sextet c) base64) = solid base64 ++ [alpha (sextet c)] := by
  obtain ⟨-, -, hspace⟩ := alpha_sextet c
  have hlast : solid [alpha (sextet c)] = [alpha (sextet c)] := List.filter_cons_of_pos (by simp [hspace])
  unfold addBase64Char
  rw [solid_append, show solid [base64Alpha.getD _ '\x00'] = [alpha (sextet c)] from hlast]
  congr 1
  split
  · rw [solid_append, show solid ['\n'] = [] from rfl, List.append_nil]
  · rfl

theorem sextet_eq (c : BitVec 32) : c &&& 0x3f#32 = sextet c := rfl

theorem bits_one (a : Byte) : 0xff0000#32 &&& widen a <<< 16 = bits a 0 0 := by simp [bits]

theorem bits_two (a : Byte) (x : BitVec 32) : bits a 0 0 ||| 0x00ff00#32 &&& x = bits a x 0 := by
  simp [bits]

theorem bits_three (a : Byte) (x y : BitVec 32) : bits a x 0 ||| 0x0000ff#32 &&& y = bits a x y := by
  simp [bits]

theorem solid_encodeFrom (data : List Byte) (base64 : List Char) :
    solid (encodeFrom data base64) = solid base64 ++ plain data := by
  induction data using plain.induct generalizing base64 with
  | case1 => simp [encodeFrom, plain]
  | case2 a | case3 a b =>
    simp only [encodeFrom, sextet_eq, bits_one, bits_two, solid_append, solid_addBase64Char, plain]
    simp [solid, isSpace]
  | case4 a b d data ih =>
    simp only [encodeFrom, sextet_eq, bits_one, bits_two, bits_three]
    rw [ih]
    simp only [solid_addBase64Char, plain, List.append_assoc, List.cons_append, List.nil_append]

/-! ## Round trip -/

theorem foldlM_four {c1 c2 c3 c4 : Char} {x : List Byte} (h1 : isSpace c1 = false)
    (h2 : isSpace c2 = false) (h3 : isSpace c3 = false) (h4 : isSpace c4 = false)
    (h : decodeFour c1 c2 c3 c4 = .ok x) (text : List Char) (data : List Byte) :
    (c1 :: c2 :: c3 :: c4 :: text).foldlM decodeStep ([], data) =
      text.foldlM decodeStep ([], data ++ x) := by
  simp only [List.foldlM_cons, decodeStep, h1, h2, h3, h4, Bool.false_eq_true, if_false,
    List.nil_append, List.cons_append, Except.ok_bind, h, Except.map]

theorem foldlM_plain (data bytes : List Byte) :
    (plain data).foldlM decodeStep ([], bytes) = .ok ([], bytes ++ data) := by
  induction data using plain.induct generalizing bytes with
  | case1 => simp [plain]; rfl
  | case2 a =>
    obtain ⟨hi1, hp1, hs1⟩ := alpha_sextet (bits a 0 0 >>> 18)
    obtain ⟨hi2, hp2, hs2⟩ := alpha_sextet (bits a 0 0 >>> 12)
    have hend : getIdx '=' = .endOfData := rfl
    have hpad : isSpace '=' = false := rfl
    have hfour := foldlM_four (x := [a]) hs1 hs2 hpad hpad
      (by simp only [decodeFour, hp1, hp2, or_self, if_false, hi1, hi2, hend, first_byte]) [] bytes
    exact hfour
  | case3 a b =>
    obtain ⟨hi1, hp1, hs1⟩ := alpha_sextet (bits a 0 0 >>> 18)
    obtain ⟨hi2, hp2, hs2⟩ := alpha_sextet (bits a (widen b <<< 8) 0 >>> 12)
    obtain ⟨hi3, hp3, hs3⟩ := alpha_sextet (bits a (widen b <<< 8) 0 >>> 6)
    have hend : getIdx '=' = .endOfData := rfl
    have hpad : isSpace '=' = false := rfl
    have hfour := foldlM_four (x := [a, b]) hs1 hs2 hs3 hpad
      (by simp only [decodeFour, hp1, hp2, or_self, if_false, hi1, hi2, hi3, hend, first_byte,
        second_byte]) [] bytes
    exact hfour
  | case4 a b d data ih =>
    obtain ⟨hi1, hp1, hs1⟩ := alpha_sextet (bits a 0 0 >>> 18)
    obtain ⟨hi2, hp2, hs2⟩ := alpha_sextet (bits a (widen b <<< 8) 0 >>> 12)
    obtain ⟨hi3, hp3, hs3⟩ := alpha_sextet (bits a (widen b <<< 8) (widen d) >>> 6)
    obtain ⟨hi4, hp4, hs4⟩ := alpha_sextet (bits a (widen b <<< 8) (widen d))
    have hfour := foldlM_four (x := [a, b, d]) hs1 hs2 hs3 hs4
      (by simp only [decodeFour, hp1, hp2, or_self, if_false, hi1, hi2, hi3, hi4, first_byte, second_byte,
        third_byte]) (plain data) bytes
    rw [plain, hfour, ih, List.append_assoc]
    rfl

/-- **Base64 loses nothing**: every sequence of bytes comes back from its text, wherever `encode`
has put the line breaks. -/
theorem decode_encode (data : List Byte) : decode (encode data) = .ok data := by
  unfold decode encode
  rw [foldlM_solid, solid_encodeFrom, show solid [] = [] from rfl, List.nil_append, foldlM_plain]
  rfl

end BinaryData

/-- A `Binary_data` object. `base64` is what `get_base64` returns; of an object made from raw data
the source writes it at the first call. -/
structure BinaryData where
  data : List Byte
  base64 : List Char
  decodes : BinaryData.decode base64 = .ok data
  deriving DecidableEq

namespace BinaryData

def fromData (data : List Byte) : BinaryData := ⟨data, encode data, decode_encode data⟩

def fromBase64 (base64 : List Char) : Except Exception BinaryData :=
  match h : decode base64 with
  | .ok data => .ok ⟨data, base64, h⟩
  | .error e => .error e

theorem fromBase64_base64 (b : BinaryData) : fromBase64 b.base64 = .ok b := by
  obtain ⟨data, base64, h⟩ := b
  unfold fromBase64
  split
  · rename_i data' h'
    obtain rfl : data' = data := Except.ok.inj (h'.symm.trans h)
    rfl
  · rename_i e h'
    exact absurd (h'.symm.trans h) (by simp)

end BinaryData

end DispCalc.Iqxmlrpc
