import RecordTape.Bytes
import RecordTape.Number.Bound
/-!
# Variable-length integers

A 64-bit integer is folded so that small magnitudes of either sign become small naturals, and the
natural is written seven bits to a byte, least significant first, with the high bit set on every
byte but the last. Reading takes at most ten bytes, and drops what ten bytes hold beyond 64 bits.
-/

namespace RecordTape.Varint

/-- Folds the sign into the lowest bit. -/
def zigzag (n : Int) : Nat :=
  if n < 0 then 2 * n.natAbs - 1 else 2 * n.natAbs

/-- Takes the sign out of the lowest bit. -/
def unzigzag (n : Nat) : Int :=
  if n % 2 = 0 then n / 2 else -((n / 2 : Nat) : Int) - 1

/-- Seven bits to a byte, least significant first. -/
def encodeNat (n : Nat) : Bytes :=
  if n < 128 then [UInt8.ofNat n] else UInt8.ofNat (n % 128 + 128) :: encodeNat (n / 128)
termination_by n

def encode (n : Int) : Bytes := encodeNat (zigzag n)

inductive Failure where
  /-- The bytes end before the integer does. -/
  | ends
  | tooLong
deriving DecidableEq, Repr

/-- The greatest number of bytes of an integer. -/
def greatestLength : Nat := 10

/-- Naturals of 64 bits lie below this number. -/
def wordBound : Nat := 0x10000000000000000

/-- Reads a natural of at most `limit` bytes. The bytes that were looked at are gone either way. -/
def decodeNat : (limit : Nat) → Bytes → Except Failure Nat × Bytes
  | 0, b => (.error .tooLong, b)
  | _ + 1, [] => (.error .ends, [])
  | limit + 1, b :: rest =>
    if b.toNat < 128 then (.ok b.toNat, rest)
    else
      match decodeNat limit rest with
      | (.ok n, rest) => (.ok (b.toNat - 128 + 128 * n), rest)
      | (.error e, rest) => (.error e, rest)

/-- Reads an integer and leaves the bytes after it. -/
def decode (b : Bytes) : Except Failure Int × Bytes :=
  match decodeNat greatestLength b with
  | (.ok n, rest) => (.ok (unzigzag (n % wordBound)), rest)
  | (.error e, rest) => (.error e, rest)

theorem unzigzag_zigzag (n : Int) : unzigzag (zigzag n) = n := by
  unfold zigzag unzigzag; split <;> split <;> omega

theorem decodeNat_encodeNat (n limit : Nat) (h : n < Nat.pow 128 (limit + 1)) (rest : Bytes) :
    decodeNat (limit + 1) (encodeNat n ++ rest) = (.ok n, rest) := by
  induction limit generalizing n with
  | zero =>
    have hn : n < 128 := by simpa using h
    have : (UInt8.ofNat n).toNat = n := by simp; omega
    rw [encodeNat, if_pos hn]
    simp only [List.cons_append, List.nil_append, decodeNat, this, hn, if_true]
  | succ limit ih =>
    rw [encodeNat]
    split
    · rename_i hn
      have : (UInt8.ofNat n).toNat = n := by simp; omega
      simp only [List.cons_append, List.nil_append, decodeNat, this, hn, if_true]
    · rename_i hn
      have hb : (UInt8.ofNat (n % 128 + 128)).toNat = n % 128 + 128 := by simp; omega
      have hd : n / 128 < Nat.pow 128 (limit + 1) := by
        have h : n < Nat.pow 128 (limit + 1) * 128 := h
        exact Nat.div_lt_of_lt_mul (by omega)
      have hge : ¬ (n % 128 + 128 < 128) := by omega
      have hn' : n % 128 + 128 - 128 + 128 * (n / 128) = n := by omega
      rw [List.cons_append, decodeNat]
      simp only [hb, hge, if_false, ih _ hd, hn']

/-- Reading what was written gives a 64-bit integer back and leaves the rest. -/
theorem decode_encode {n : Int} (low : -int64Bound ≤ n) (high : n < int64Bound) (rest : Bytes) :
    decode (encode n ++ rest) = (.ok n, rest) := by
  have word : zigzag n < wordBound := by
    unfold zigzag int64Bound wordBound at *
    split <;> omega
  have h : zigzag n < Nat.pow 128 (9 + 1) := by
    show zigzag n < 0x400000000000000000
    unfold wordBound at word
    omega
  simp only [decode, encode, greatestLength, decodeNat_encodeNat _ 9 h, Nat.mod_eq_of_lt word,
    unzigzag_zigzag]

end RecordTape.Varint
