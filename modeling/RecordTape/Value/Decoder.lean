import RecordTape.Fault
import RecordTape.Number.Binary
import RecordTape.Schema.Binding
import RecordTape.Value.Varint
/-!
# Reading from the front of bytes

The steps that reading a value is made of. A step takes bytes from the front and leaves the rest,
also when it stops: what it looked at before it found something wrong is gone, and a step that needs
more bytes than there are leaves none. Reading can therefore tell how far it got.
-/

namespace RecordTape

/-- Why bytes are no value of a schema. -/
inductive DecodeError where
  /-- The bytes end before the value does. -/
  | ends
  | integerTooLong
  /-- An integer does not fit the place it was read for. -/
  | outOfRange (n : Int)
  | notBoolean (byte : UInt8)
  | notText
  | notUuid
  /-- The key of an entry of a map is missing. -/
  | noKey
  | names (cause : BindingError)
deriving DecidableEq, Repr

/-- Reads something from the front of bytes. -/
abbrev Decoder := EStateM (Stop DecodeError) Bytes

namespace Decoder

def fail {α : Type} (e : DecodeError) : Decoder α := throw (.error e)

def crash {α : Type} (f : Fault) : Decoder α := throw (.fault f)

/-! ## Bytes -/

/-- A known number of bytes, or nothing if there are fewer. -/
def take? (n : Nat) : Decoder (Option Bytes) := fun b =>
  if n ≤ b.length then .ok (some (b.take n)) (b.drop n) else .ok none []

def take (n : Nat) : Decoder Bytes := do
  match ← take? n with
  | some b => return b
  | none => fail .ends

/-- Bytes in front of others are taken whole. -/
theorem take?_append (b rest : Bytes) : take? b.length (b ++ rest) = .ok (some b) rest := by
  have h : b.length ≤ (b ++ rest).length := by simp
  rw [take?, if_pos h, List.take_left, List.drop_left]

/-! ## Integers -/

/-- An integer of 64 bits, or nothing if the bytes end before it does. -/
def integer? : Decoder (Option Int) := fun b =>
  match Varint.decode b with
  | (.ok n, rest) => .ok (some n) rest
  | (.error .ends, rest) => .ok none rest
  | (.error .tooLong, rest) => .error (.error .integerTooLong) rest

def integer : Decoder Int := do
  match ← integer? with
  | some n => return n
  | none => fail .ends

/-- An integer that was written is read back, whatever follows it. -/
theorem integer?_encode {n : Int} (low : -int64Bound ≤ n) (high : n < int64Bound) (rest : Bytes) :
    integer? (Varint.encode n ++ rest) = .ok (some n) rest := by
  rw [integer?, Varint.decode_encode low high]

/-- An integer that was written is read back, whatever follows it. -/
theorem integer_encode {n : Int} (low : -int64Bound ≤ n) (high : n < int64Bound) (rest : Bytes) :
    integer (Varint.encode n ++ rest) = .ok n rest := by
  show EStateM.bind integer? _ _ = _
  simp only [EStateM.bind, integer?_encode low high]
  rfl

def int64 : Decoder Int64 := do
  return Int64.ofInt (← integer)

def int32 : Decoder Int32 := do
  let n ← integer
  if -int32Bound ≤ n ∧ n < int32Bound then return Int32.ofInt n else fail (.outOfRange n)

/-- The greatest length or count that is accepted where nothing else is said. -/
def greatestLength : Nat := 0x20000000

/-- The greatest length or count that there is. -/
def anyLength : Nat := 0x7FFFFFFFFFFFFFFF

/-- A length or count of at most `greatest`. -/
def checkLength (greatest : Nat) (n : Int) : Decoder Nat :=
  if 0 ≤ n ∧ n ≤ greatest then return n.toNat else fail (.outOfRange n)

def length (greatest : Nat) : Decoder Nat := do
  checkLength greatest (← integer)

/-! ## Content -/

/-- Bytes after their length. -/
def bytes (greatest : Nat) : Decoder Bytes := do
  take (← length greatest)

/-- A text after its length, or nothing if the bytes end before the text does. -/
def text? (greatest : Nat) : Decoder (Option String) := do
  match ← take? (← length greatest) with
  | none => return none
  | some b =>
    match Bytes.toText? b with
    | some t => return some t
    | none => fail .notText

def float (f : FloatFormat) : Decoder (Binary f) := do
  return Binary.ofBits (Bytes.ofLittleEndian (← take (f.width / 8)))

/-! ## Collections -/

/-- The count of a block. A negative count has its opposite for a count, and the size of the block
after it. -/
def blockCount (greatest : Nat) : Decoder Nat := do
  let n ← integer
  if n < 0 then
    let _ ← integer
    if n = -int64Bound then crash .blockCountOverflow
    checkLength greatest (-n)
  else checkLength greatest n

/-- A known number of items, put in front of those read before, the last one first. -/
def items {α : Type} (item : Decoder α) : (count : Nat) → List α → Decoder (List α)
  | 0, before => return before
  | n + 1, before => do
    let a ← item
    items item n (a :: before)

/-- The items of at most `limit` blocks, up to a block of none, the last one first. -/
def blocks {α : Type} (greatest : Nat) (item : Decoder α) :
    (limit : Nat) → List α → Decoder (List α)
  | 0, _ => fail .ends
  | limit + 1, before => do
    match ← blockCount greatest with
    | 0 => return before
    | count => blocks greatest item limit (← items item count before)

/-- The items of a collection in order. Each block takes a byte at least, so there is no more than
one for each byte. -/
def collection {α : Type} (greatest : Nat) (item : Decoder α) : Decoder (List α) := do
  let b ← get
  return (← blocks greatest item (b.length + 1) []).reverse

end Decoder
end RecordTape
