import RecordTape.Json.Basic
import RecordTape.Json.Text
import RecordTape.Number.Bound
/-!
# Reading JSON

The meaning of a well-formed text: surrogate escapes are paired, whole numbers outside
`[-2^63, 2^64)` and minus zero become doubles, and a decimal beyond the doubles has no meaning, nor
has a text of more than 127 nested containers.

Decimals are read in double arithmetic: the leading digits that fit 64 bits become a double, and
that is multiplied or divided by a power of ten. Both steps round, so a decimal of more than fifteen
digits may miss the double nearest to it by a little.
-/

namespace RecordTape.Json

/-- The greatest number of containers around a value, its own brackets included. -/
def greatestDepth : Nat := 127

/-- The characters of a string. A `\u` escape of a high surrogate needs one of a low surrogate
right after it, and a low surrogate stands nowhere else. -/
def charsOfUnits : List StringUnit → Option (List Char)
  | [] => some []
  | .char c :: rest => (charsOfUnits rest).map (c :: ·)
  | .code high :: .code low :: rest =>
    if 0xD800 ≤ high ∧ high < 0xDC00 then
      if 0xDC00 ≤ low ∧ low < 0xE000 then
        let code := 0x10000 + (high - 0xD800) * 0x400 + (low - 0xDC00)
        (charsOfUnits rest).map (Char.ofNat code :: ·)
      else none
    else if 0xDC00 ≤ high ∧ high < 0xE000 then none
    else (charsOfUnits (.code low :: rest)).map (Char.ofNat high :: ·)
  | .code n :: rest =>
    if 0xD800 ≤ n ∧ n < 0xE000 then none else (charsOfUnits rest).map (Char.ofNat n :: ·)

def textOfUnits (units : List StringUnit) : Option String :=
  (charsOfUnits units).map String.ofList

/-! ## Numbers -/

def greatestPower : Nat := 308

def power (e : Nat) : Binary64 := Binary.ofDecimal false 1 e

/-- A double times a power of ten; nothing if that is beyond the doubles. Below the least power the
greatest one is divided by first, and far below it nothing is left but zero. -/
def scale? (x : Binary64) (e : Int) : Option Binary64 :=
  let n := e.natAbs
  if 0 ≤ e then
    if x.magnitude = 0 then some x
    else if n ≤ greatestPower then
      let y := x.mul (power n)
      if y.isFinite then some y else none
    else none
  else if n ≤ greatestPower then some (x.div (power n))
  else if n ≤ 2 * greatestPower then
    some ((x.div (power greatestPower)).div (power (n - greatestPower)))
  else some (Binary.ofInt 0)

/-- The digits in front that fit 64 bits put behind those of `n`, and how many digits follow them.
-/
def gather (n : Nat) : List Char → Nat × Nat
  | [] => (n, 0)
  | c :: cs =>
    let m := n * 10 + (c.toNat - 48)
    if m < uint64Bound then gather m cs else (n, cs.length + 1)

/-- The value of a whole number of 64 bits. Those below `-2^63` and minus zero are doubles. -/
def ofWhole (negative : Bool) (n : Nat) : Json :=
  if negative then
    if n = 0 ∨ int64Bound < n then .double ((Binary.ofInt n).withSign true) else .int (-(n : Int))
  else .int n

def Literal.toJson? (l : Literal) : Option Json :=
  let (n, skipped) := gather 0 l.whole
  if skipped = 0 ∧ l.fraction = none ∧ l.exponent = none then some (ofWhole l.negative n)
  else
    let fraction := l.fraction.getD []
    let (m, left) := gather n fraction
    let e : Int := skipped - (fraction.length - left : Nat) + l.exponent.getD 0
    (scale? (Binary.ofInt m) e).map fun x => .double (x.withSign l.negative)

/-! ## Containers -/

mutual

/-- The value of a text that may open `depth` more containers around each of its parts. -/
def Text.toJson? : Text → (depth : Nat) → Option Json
  | .null, _ => some .null
  | .bool b, _ => some (.bool b)
  | .number n, _ => n.toJson?
  | .string units, _ => (textOfUnits units).map .string
  | .array items, depth =>
    if depth = 0 then none else (itemsToJson? items (depth - 1)).map .array
  | .object members, depth =>
    if depth = 0 then none else (membersToJson? members (depth - 1)).map ofMembers

def itemsToJson? : List Text → (depth : Nat) → Option (List Json)
  | [], _ => some []
  | t :: ts, depth => do return (← t.toJson? depth) :: (← itemsToJson? ts depth)

/-- The members of an object, in the order written. -/
def membersToJson? : List (List StringUnit × Text) → (depth : Nat) → Option (List (String × Json))
  | [], _ => some []
  | (key, t) :: rest, depth => do
    return (← textOfUnits key, ← t.toJson? depth) :: (← membersToJson? rest depth)

end

def parse (s : String) : Option Json := do
  (← Text.parse s).toJson? greatestDepth

end RecordTape.Json
