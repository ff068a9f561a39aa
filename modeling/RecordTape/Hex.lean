import RecordTape.Bytes
/-!
# Hexadecimal text

Bytes are shown as two lower-case digits each, most significant first; reading takes either case.
-/

namespace RecordTape.Hex

/-- The lower-case digit of a number below 16. -/
def digit (n : Nat) : Char :=
  if n < 10 then Char.ofNat (48 + n) else Char.ofNat (87 + n)

/-- The number a hexadecimal digit stands for. -/
def value? (c : Char) : Option Nat :=
  if '0' ≤ c ∧ c ≤ '9' then some (c.toNat - 48)
  else if 'a' ≤ c ∧ c ≤ 'f' then some (c.toNat - 87)
  else if 'A' ≤ c ∧ c ≤ 'F' then some (c.toNat - 55)
  else none

def encodeChars (bs : Bytes) : List Char :=
  bs.flatMap fun b => [digit (b.toNat / 16), digit (b.toNat % 16)]

def encode (bs : Bytes) : String :=
  String.ofList (encodeChars bs)

/-- Reads pairs of digits; a lone digit or another character is refused. -/
def decodeChars : List Char → Option Bytes
  | [] => some []
  | [_] => none
  | a :: b :: rest => do
    let high ← value? a
    let low ← value? b
    return UInt8.ofNat (high * 16 + low) :: (← decodeChars rest)

def decode (s : String) : Option Bytes :=
  decodeChars s.toList

/-- The number that hexadecimal digits spell, most significant first. -/
def toNat? (s : String) : Option Nat :=
  s.toList.foldlM (fun n c => (value? c).map (n * 16 + ·)) 0

/-- The shortest hexadecimal spelling of a number. -/
def ofNat (n : Nat) : String :=
  String.ofList (Nat.toDigits 16 n)

theorem length_encodeChars (bs : Bytes) : (encodeChars bs).length = 2 * bs.length := by
  induction bs with
  | nil => rfl
  | cons b bs ih => simp_all [encodeChars]; omega

theorem value?_digit : ∀ n < 16, value? (digit n) = some n := by decide

/-- Reading what was shown gives the bytes back. -/
theorem decodeChars_encodeChars (bs : Bytes) : decodeChars (encodeChars bs) = some bs := by
  induction bs with
  | nil => rfl
  | cons b bs ih =>
    have hb : b.toNat < 256 := b.toNat_lt
    have h1 := value?_digit (b.toNat / 16) (by omega)
    have h2 := value?_digit (b.toNat % 16) (by omega)
    have h3 : b.toNat / 16 * 16 + b.toNat % 16 = b.toNat := by omega
    have e : encodeChars (b :: bs) =
        digit (b.toNat / 16) :: digit (b.toNat % 16) :: encodeChars bs := rfl
    simp only [e, decodeChars, h1, h2, ih, h3, Option.bind_eq_bind, Option.bind_some]
    simp

end RecordTape.Hex
