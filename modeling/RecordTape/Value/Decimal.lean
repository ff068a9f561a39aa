import RecordTape.Fault
import RecordTape.Value.Mismatch
import RecordTape.Bytes
import RecordTape.Number.Bound
/-!
# Decimals

A decimal is a whole number in two's complement, most significant byte first. Its bytes must be able
to hold every number of the schema's precision; over a fixed they are widened to its size by
repeating the sign.
-/

namespace RecordTape.Decimal

/-- From this length on, twice the greatest double is exceeded and every precision fits. -/
def boundlessLength : Nat := 129

/-- The precision that any length of at least `boundlessLength` can hold. -/
def greatestPrecision : Nat := 0xFFFFFFFFFFFFFFFF

/-- The number of decimal digits that every number of this many digits fits into `length` bytes:
one less than the digits of the greatest number. Bit counts are 32-bit integers. -/
def precisionOf (length : Nat) : Outcome Mismatch Nat :=
  if int32Bound ≤ length then .fail (.lengthRange length)
  else if int32Bound ≤ 8 * length then .crash (.bitLengthOverflow length)
  else if length = 0 then pure 0
  else if boundlessLength ≤ length then pure greatestPrecision
  else pure ((toString (Nat.pow 2 (8 * length - 1) - 1)).length - 1)

/-- The bytes are enough for the precision. -/
def checkLength (precision : Nat) (b : Bytes) : Outcome Mismatch Unit := do
  if (← precisionOf b.length) < precision then .fail (.decimalLength precision b.length)

/-- The base is large enough for the precision. -/
def checkBase (precision : Nat) : DecimalBase → Outcome Mismatch Unit
  | .bytes => pure ()
  | .fixed _ size => do
    if (← precisionOf size) < precision then .fail (.decimalBase size precision)

/-- The sign bit of the first byte is set. -/
def isNegative : Bytes → Bool
  | [] => false
  | b :: _ => 128 ≤ b.toNat

def toInt (b : Bytes) : Int :=
  let n : Int := Bytes.ofBigEndian b
  if isNegative b then n - Nat.pow 256 b.length else n

/-- The byte that a sign is repeated with. -/
def signByte (b : Bytes) : UInt8 := if isNegative b then 255 else 0

/-- The fewest bytes that hold the same number; at least one. -/
def minimal : Bytes → Bytes
  | [] => [0]
  | [b] => [b]
  | a :: b :: rest =>
    if (a = 0 ∧ b.toNat < 128) ∨ (a = 255 ∧ 128 ≤ b.toNat) then minimal (b :: rest)
    else a :: b :: rest

/-- The same number in exactly `size` bytes, if it fits. -/
def widen (size : Nat) (b : Bytes) : Option Bytes :=
  let m := minimal b
  if size < m.length then none else some (List.replicate (size - m.length) (signByte b) ++ m)

end RecordTape.Decimal
