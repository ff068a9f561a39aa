import Mathlib.Algebra.Group.Nat.Defs
import RecordTape.Capacity
import RecordTape.Value.Decode
import RecordTape.Value.Encode
/-!
# Reading primitives back

Each primitive that was written is read back from the front of bytes, whatever follows it. A decimal
over a fixed comes back in the size of the fixed, with the same number.
-/

namespace RecordTape

/-! ## Steps of reading -/

namespace Decoder

theorem bind_ok {α β : Type} {x : Decoder α} {a : α} {b rest : Bytes} (h : x b = .ok a rest)
    (f : α → Decoder β) : (x >>= f) b = f a rest := by
  show EStateM.bind x f b = _
  rw [EStateM.bind, h]

/-- The bytes are read as the result, whatever follows them. -/
def Reads {α : Type} (x : Decoder α) (b : Bytes) (a : α) : Prop :=
  ∀ rest, x (b ++ rest) = .ok a rest

namespace Reads

variable {α β : Type} {x : Decoder α} {a : α} {b c : Bytes}

theorem pure (a : α) : Reads (Pure.pure a) [] a := fun _ => rfl

theorem bind {f : α → Decoder β} {a' : β} (h : Reads x b a) (h' : Reads (f a) c a') :
    Reads (x >>= f) (b ++ c) a' := by
  intro rest
  rw [List.append_assoc, bind_ok (h _)]
  exact h' rest

theorem map (h : Reads x b a) (f : α → β) : Reads (f <$> x) b (f a) := by
  intro rest
  show EStateM.map f x _ = _
  rw [EStateM.map, h]

/-- A step after which nothing more is read. -/
theorem bind_end {f : α → Decoder β} {a' : β} (h : Reads x b a) (h' : Reads (f a) [] a') :
    Reads (x >>= f) b a' := by
  simpa using h.bind h'

end Reads

theorem reads_take? (b : Bytes) : Reads (take? b.length) b (some b) := take?_append b

theorem reads_take (b : Bytes) : Reads (take b.length) b b :=
  (reads_take? b).bind_end (.pure b)

theorem reads_integer {n : Int} (low : -int64Bound ≤ n) (high : n < int64Bound) :
    Reads integer (Varint.encode n) n := integer_encode low high

theorem reads_int64 (n : Int64) : Reads int64 (Varint.encode n.toInt) n := by
  have h := (reads_integer n.le_toInt n.toInt_lt).map Int64.ofInt
  rwa [Int64.ofInt_toInt] at h

theorem reads_int32 (n : Int32) : Reads int32 (Varint.encode n.toInt) n := by
  have low : -int32Bound ≤ n.toInt := n.le_toInt
  have high : n.toInt < int32Bound := n.toInt_lt
  have hread : Reads integer (Varint.encode n.toInt) n.toInt := by
    apply reads_integer <;> unfold int32Bound at * <;> unfold int64Bound <;> omega
  refine hread.bind_end ?_
  rw [if_pos ⟨low, high⟩, Int32.ofInt_toInt]
  exact .pure n

theorem reads_natural? {n : Nat} (h : n < Capacity.limit) :
    Reads integer? (Varint.encode n) (some (n : Int)) := by
  unfold Capacity.limit at h
  apply integer?_encode <;> unfold int64Bound <;> omega

theorem reads_natural {n : Nat} (h : n < Capacity.limit) :
    Reads integer (Varint.encode n) (n : Int) :=
  (reads_natural? h).bind_end (.pure _)

theorem reads_checkLength {n : Nat} (h : n < Capacity.limit) :
    Reads (checkLength anyLength n) [] n := by
  unfold Capacity.limit at h
  rw [checkLength, if_pos]
  · exact .pure n
  · unfold anyLength
    omega

theorem reads_length {n : Nat} (h : n < Capacity.limit) :
    Reads (length anyLength) (Varint.encode n) n :=
  (reads_natural h).bind_end (reads_checkLength h)

theorem reads_bytes {b : Bytes} (h : b.length < Capacity.limit) :
    Reads (bytes anyLength) (Value.withLength b) b :=
  (reads_length h).bind (reads_take b)

theorem reads_text? {t : String} (h : (Bytes.ofText t).length < Capacity.limit) :
    Reads (text? anyLength) (Value.withLength (Bytes.ofText t)) (some t) := by
  refine (reads_length h).bind ((reads_take? (Bytes.ofText t)).bind_end ?_)
  simp only [Bytes.toText?_ofText]
  exact .pure (some t)

/-- A number whose bits fill whole bytes is read back. -/
theorem reads_float {f : FloatFormat} (hf : Nat.pow 256 (f.width / 8) = 2 ^ f.width)
    (x : Binary f) : Reads (float f) (Value.floatBytes x) x := by
  have htake : Reads (take (f.width / 8)) (Value.floatBytes x) (Value.floatBytes x) := by
    have h := reads_take (Value.floatBytes x)
    rwa [Value.floatBytes, Bytes.length_littleEndian] at h
  refine htake.bind_end ?_
  rw [Value.floatBytes, Bytes.ofLittleEndian_littleEndian, hf, Nat.mod_eq_of_lt x.bits.isLt]
  simp only [Binary.ofBits, BitVec.ofNat_toNat, BitVec.setWidth_eq]
  exact .pure x

end Decoder

namespace Value

open Decoder (Reads)

theorem reads_boolean (b : Bool) : Reads decodeBoolean [if b then 1 else 0] (.boolean b) := by
  intro rest
  cases b <;> rfl

theorem reads_symbol {symbols : List String} {i : Nat} {t : String} (h : symbols[i]? = some t)
    (hi : (i : Int) < int32Bound) : Reads (decodeSymbol symbols) (Varint.encode i) (.enum i t) := by
  obtain ⟨hlt, -⟩ := List.getElem?_eq_some_iff.mp h
  have hint : (Int32.ofInt i).toInt = i := by
    have high : (i : Int) < 2 ^ 31 := hi
    exact Int32.toInt_ofInt_of_le (by omega) high
  have hread := Decoder.reads_int32 (Int32.ofInt i)
  rw [hint] at hread
  refine hread.bind_end ?_
  simp only [hint]
  rw [if_neg (by omega)]
  simp only [Int.toNat_natCast, h]
  exact .pure _

end Value

/-! ## Identifiers -/

namespace Bytes

theorem length_ofText_le (s : String) : (ofText s).length ≤ 4 * s.toList.length := by
  rw [ofText_eq_flatMap]
  induction s.toList with
  | nil => simp
  | cons c cs ih =>
    have := c.utf8Size_le_four
    simp only [List.flatMap_cons, List.length_append, String.length_utf8EncodeChar,
      List.length_cons]
    omega

end Bytes

namespace Hex

theorem encodeChars_append (a b : Bytes) :
    encodeChars (a ++ b) = encodeChars a ++ encodeChars b := List.flatMap_append

end Hex

namespace Uuid

theorem ofHyphenated_groups {a b c d e : List Char} (ha : a.length = 8) (hb : b.length = 4)
    (hc : c.length = 4) (hd : d.length = 4) (he : e.length = 12) :
    ofHyphenated (a ++ '-' :: (b ++ '-' :: (c ++ '-' :: (d ++ '-' :: e)))) =
      ofDigits (a ++ b ++ c ++ d ++ e) := by
  match a, ha, b, hb, c, hc, d, hd with
  | [_, _, _, _, _, _, _, _], _, [_, _, _, _], _, [_, _, _, _], _, [_, _, _, _], _ =>
    simp [ofHyphenated, he]

theorem length_group {octets : Bytes} (size : octets.length = 16) {start count : Nat}
    (h : start + count ≤ 16) :
    (Hex.encodeChars ((octets.drop start).take count)).length = 2 * count := by
  rw [Hex.length_encodeChars, List.length_take, List.length_drop]
  omega

theorem toList_text (u : Uuid) :
    u.text.toList = Hex.encodeChars ((u.octets.drop 0).take 4) ++
      '-' :: (Hex.encodeChars ((u.octets.drop 4).take 2) ++
        '-' :: (Hex.encodeChars ((u.octets.drop 6).take 2) ++
          '-' :: (Hex.encodeChars ((u.octets.drop 8).take 2) ++
            '-' :: Hex.encodeChars ((u.octets.drop 10).take 6)))) := by
  simp [text, String.intercalate_cons_cons, String.intercalate_singleton, Hex.encode]

theorem length_toList_text (u : Uuid) : u.text.toList.length = 36 := by
  rw [toList_text]
  simp only [List.length_append, List.length_cons]
  rw [length_group u.size (by decide), length_group u.size (by decide),
    length_group u.size (by decide), length_group u.size (by decide),
    length_group u.size (by decide)]

/-- The groups of an identifier's octets are all of them. -/
theorem groups_eq {octets : Bytes} (size : octets.length = 16) :
    (octets.drop 0).take 4 ++ (octets.drop 4).take 2 ++ (octets.drop 6).take 2 ++
      (octets.drop 8).take 2 ++ (octets.drop 10).take 6 = octets := by
  have hstep : ∀ i, (octets.drop i).take 2 ++ octets.drop (i + 2) = octets.drop i := by
    intro i
    rw [← List.drop_drop, List.take_append_drop]
  have hlast : (octets.drop 10).take 6 = octets.drop 10 :=
    List.take_of_length_le (by rw [List.length_drop]; omega)
  rw [hlast, List.append_assoc, hstep 8, List.append_assoc, hstep 6, List.append_assoc, hstep 4,
    List.drop_zero, List.take_append_drop]

/-- An identifier is read back from its text. -/
theorem parse_text (u : Uuid) : parse u.text = some u := by
  have hlen := u.length_toList_text
  have hsize := u.size
  simp only [parse]
  rw [if_neg (by omega), if_pos hlen, toList_text,
    ofHyphenated_groups (length_group hsize (by decide)) (length_group hsize (by decide))
      (length_group hsize (by decide)) (length_group hsize (by decide))
      (length_group hsize (by decide))]
  simp only [← Hex.encodeChars_append, groups_eq hsize, ofDigits, Hex.decodeChars_encodeChars]
  simp [hsize]

/-- The text of an identifier is read as the identifier. -/
theorem reads_text (u : Uuid) :
    Decoder.Reads (Value.decodeUuid Decoder.anyLength) (Value.withLength (Bytes.ofText u.text))
      (Value.uuid u) := by
  have hlen : (Bytes.ofText u.text).length < Capacity.limit := by
    have := Bytes.length_ofText_le u.text
    rw [length_toList_text] at this
    unfold Capacity.limit
    omega
  refine (Decoder.reads_text? hlen).bind_end ?_
  simp only [parse_text]
  exact .pure (Value.uuid u)

end Uuid

/-! ## Decimals -/

namespace Bytes

theorem ofLittleEndian_append (a b : Bytes) :
    ofLittleEndian (a ++ b) = ofLittleEndian a + 256 ^ a.length * ofLittleEndian b := by
  induction a with
  | nil => simp [ofLittleEndian]
  | cons x a ih =>
    simp only [List.cons_append, ofLittleEndian, ih, List.length_cons, Nat.pow_succ]
    rw [Nat.mul_add, Nat.add_assoc, ← Nat.mul_assoc, Nat.mul_comm 256 (256 ^ a.length)]

theorem ofBigEndian_cons (x : UInt8) (b : Bytes) :
    ofBigEndian (x :: b) = ofBigEndian b + 256 ^ b.length * x.toNat := by
  rw [ofBigEndian, List.reverse_cons, ofLittleEndian_append, List.length_reverse]
  simp [ofBigEndian, ofLittleEndian]

end Bytes

namespace Decimal

theorem isNegative_signByte_cons (b c : Bytes) : isNegative (signByte b :: c) = isNegative b := by
  unfold signByte
  cases h : isNegative b <;> rfl

theorem signByte_signByte_cons (b c : Bytes) : signByte (signByte b :: c) = signByte b := by
  rw [signByte, isNegative_signByte_cons]
  rfl

/-- Repeating the sign in front of a number does not change it. -/
theorem toInt_signByte_cons (b : Bytes) : toInt (signByte b :: b) = toInt b := by
  have hpow : Nat.pow 256 (b.length + 1) = 256 ^ b.length * 256 := rfl
  have hpow' : Nat.pow 256 b.length = 256 ^ b.length := rfl
  unfold toInt
  rw [isNegative_signByte_cons, Bytes.ofBigEndian_cons, List.length_cons, hpow, hpow']
  generalize 256 ^ b.length = power
  unfold signByte
  cases h : isNegative b
  · simp
  · simp
    omega

theorem toInt_replicate (n : Nat) (b : Bytes) :
    toInt (List.replicate n (signByte b) ++ b) = toInt b ∧
      signByte (List.replicate n (signByte b) ++ b) = signByte b := by
  induction n with
  | zero => exact ⟨rfl, rfl⟩
  | succ n ih =>
    obtain ⟨hint, hsign⟩ := ih
    rw [List.replicate_succ, List.cons_append]
    refine ⟨?_, signByte_signByte_cons b _⟩
    generalize List.replicate n (signByte b) ++ b = c at hint hsign
    rw [← hsign, toInt_signByte_cons, hint]

/-- A number in the fewest bytes is the same number, and has the same sign. -/
theorem minimal_spec (b : Bytes) :
    toInt (minimal b) = toInt b ∧ signByte (minimal b) = signByte b := by
  fun_induction minimal b with
  | case1 => exact ⟨rfl, rfl⟩
  | case2 b => exact ⟨rfl, rfl⟩
  | case3 a b rest h ih =>
    -- The byte that is left out is the one that the sign of the others is repeated with.
    have hsign : a = signByte (b :: rest) := by
      unfold signByte isNegative
      rcases h with ⟨rfl, hb⟩ | ⟨rfl, hb⟩
      · simp [hb]
      · simp [hb]
    rw [ih.1, ih.2, hsign, toInt_signByte_cons, signByte_signByte_cons]
    exact ⟨rfl, rfl⟩
  | case4 => exact ⟨rfl, rfl⟩

/-- Widening gives the same number in as many bytes as asked for. -/
theorem widen_spec {size : Nat} {b wide : Bytes} (h : widen size b = some wide) :
    wide.length = size ∧ toInt wide = toInt b := by
  unfold widen at h
  simp only at h
  split at h
  · cases h
  · cases h
    obtain ⟨hint, hsign⟩ := minimal_spec b
    rw [← hsign, (toInt_replicate _ _).1, hint]
    refine ⟨?_, rfl⟩
    rw [List.length_append, List.length_replicate]
    omega

end Decimal

end RecordTape
