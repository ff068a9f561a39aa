/-!
# Byte strings

A byte string is a list of octets. This module holds its fixed-width big-endian and little-endian
spellings of natural numbers, the reading of a big-endian number, and the conversion from and to
UTF-8 text.
-/

namespace RecordTape

/-- A finite sequence of octets. -/
abbrev Bytes := List UInt8

namespace Bytes

/-- The `width` low bytes of a number, least significant byte first. -/
def littleEndian : (width : Nat) → Nat → Bytes
  | 0, _ => []
  | w + 1, n => UInt8.ofNat n :: littleEndian w (n / 256)

/-- The `width` low bytes of a number, most significant byte first. -/
def bigEndian (width n : Nat) : Bytes :=
  (littleEndian width n).reverse

def ofLittleEndian : Bytes → Nat
  | [] => 0
  | b :: bs => b.toNat + 256 * ofLittleEndian bs

def ofBigEndian (bs : Bytes) : Nat :=
  ofLittleEndian bs.reverse

def ofText (s : String) : Bytes :=
  s.toUTF8.data.toList

/-- The text with these UTF-8 bytes, if they are well-formed UTF-8. -/
def toText? (bs : Bytes) : Option String :=
  String.fromUTF8? (ByteArray.mk bs.toArray)

@[simp] theorem length_littleEndian (w n : Nat) : (littleEndian w n).length = w := by
  induction w generalizing n with
  | zero => rfl
  | succ w ih => simp [littleEndian, ih]

@[simp] theorem length_bigEndian (w n : Nat) : (bigEndian w n).length = w := by
  simp [bigEndian]

theorem ofLittleEndian_littleEndian (w n : Nat) :
    ofLittleEndian (littleEndian w n) = n % Nat.pow 256 w := by
  induction w generalizing n with
  | zero => simp [littleEndian, ofLittleEndian, Nat.mod_one]
  | succ w ih =>
    have h : n % Nat.pow 256 (w + 1) = n % 256 + 256 * (n / 256 % Nat.pow 256 w) := by
      show n % (Nat.pow 256 w * 256) = _
      rw [Nat.mul_comm, Nat.mod_mul]
    rw [littleEndian, ofLittleEndian, ih, h, UInt8.toNat_ofNat']

/-- Reading a big-endian number back loses nothing that fits the width. -/
theorem ofBigEndian_bigEndian (w n : Nat) : ofBigEndian (bigEndian w n) = n % Nat.pow 256 w := by
  rw [ofBigEndian, bigEndian, List.reverse_reverse, ofLittleEndian_littleEndian]

/-- A text is spelled character by character. -/
theorem ofText_eq_flatMap (s : String) : ofText s = s.toList.flatMap String.utf8EncodeChar := by
  rw [ofText, String.toUTF8, ← String.utf8Encode_toList, List.utf8Encode]
  simp

theorem ofText_append (s t : String) : ofText (s ++ t) = ofText s ++ ofText t := by
  simp only [ofText_eq_flatMap, String.toList_append, List.flatMap_append]

theorem toText?_ofText (s : String) : toText? (ofText s) = some s := by
  have h : ByteArray.mk (s.toUTF8.data.toList.toArray) = s.toUTF8 := by simp
  simp only [toText?, ofText, h]
  simp [String.fromUTF8?, String.toUTF8, s.isValidUTF8, String.fromUTF8]

end Bytes
end RecordTape
