/-!
# Binary floating-point numbers

Numbers of the binary interchange formats, held as their bits. Every operation is exact arithmetic
on naturals followed by one rounding to nearest, ties to even, so that the same definition serves
both widths: `round` turns a positive fraction into magnitude bits, and the conversions from
integers, from decimals and between widths go through it.
-/

namespace RecordTape

/-- A binary interchange format: how many bits hold the fraction and how many the exponent. -/
structure FloatFormat where
  fraction : Nat
  exponent : Nat
deriving DecidableEq

namespace FloatFormat

/-- All bits of a number: sign, exponent, fraction. -/
def width (f : FloatFormat) : Nat := 1 + f.exponent + f.fraction

/-- The exponent of two of the least positive number. -/
def least (f : FloatFormat) : Int := 2 - (Nat.pow 2 (f.exponent - 1) : Nat) - f.fraction

/-- The number of steps from one power of two to the next. -/
def steps (f : FloatFormat) : Nat := Nat.pow 2 f.fraction

/-- The magnitude bits of infinity; greater magnitudes are not numbers. -/
def infinity (f : FloatFormat) : Nat := (Nat.pow 2 f.exponent - 1) * f.steps

/-- The weight of the sign bit. -/
def sign (f : FloatFormat) : Nat := Nat.pow 2 (f.exponent + f.fraction)

/-- The fraction bit that marks a quiet not-a-number. -/
def quiet (f : FloatFormat) : Nat := Nat.pow 2 (f.fraction - 1)

/-- The whole number nearest to a quotient, a half going to the even neighbour. -/
def nearest (num den : Nat) : Nat :=
  let q := num / den
  let r := num % den
  if 2 * r > den || (2 * r == den && q % 2 == 1) then q + 1 else q

/-- The quotient `num / (den * 2 ^ e)` as a pair of naturals. -/
def scaled (num den : Nat) (e : Int) : Nat × Nat :=
  if e < 0 then (num * Nat.pow 2 e.natAbs, den) else (num, den * Nat.pow 2 e.natAbs)

/-- The magnitude bits of the number nearest to a positive quotient. The exponent field and the
fraction together count the steps of size `2 ^ e` from the start of the binade, so a carry out of
the fraction moves to the next binade by itself. -/
def round (f : FloatFormat) (num den : Nat) : Nat :=
  let guess : Int := (Nat.log2 num : Int) - Nat.log2 den
  let (a, b) := scaled num den guess
  let top := if b ≤ a then guess else guess - 1
  let e := max f.least (top - f.fraction)
  let (a, b) := scaled num den e
  min f.infinity ((e - f.least).toNat * f.steps + nearest a b)

end FloatFormat

/-- A floating-point number of a format, as its bits. -/
structure Binary (f : FloatFormat) where
  bits : BitVec f.width
deriving DecidableEq

abbrev Binary32 := Binary ⟨23, 8⟩

abbrev Binary64 := Binary ⟨52, 11⟩

namespace Binary

variable {f : FloatFormat}

def ofBits (n : Nat) : Binary f := ⟨BitVec.ofNat _ n⟩

/-- A sign and magnitude bits put together. -/
def ofMagnitude (negative : Bool) (magnitude : Nat) : Binary f :=
  ofBits (if negative then f.sign + magnitude else magnitude)

/-- The sign bit is set. -/
def isNegative (x : Binary f) : Bool := f.sign ≤ x.bits.toNat

/-- The bits below the sign. -/
def magnitude (x : Binary f) : Nat := x.bits.toNat % f.sign

def isNaN (x : Binary f) : Bool := f.infinity < x.magnitude

/-- A number other than the infinities. -/
def isFinite (x : Binary f) : Bool := x.magnitude < f.infinity

/-- Equality of numbers: the two zeros are equal and not-a-number equals nothing. -/
def same (x y : Binary f) : Bool :=
  !x.isNaN && !y.isNaN && (x.bits == y.bits || (x.magnitude == 0 && y.magnitude == 0))

/-- The magnitude of a finite number as `m * 2 ^ e`. -/
def unpack (x : Binary f) : Nat × Int :=
  let field := x.magnitude / f.steps
  let low := x.magnitude % f.steps
  if field = 0 then (low, f.least) else (low + f.steps, f.least + (field - 1 : Nat))

def ofQuotient (negative : Bool) (num den : Nat) : Binary f :=
  ofMagnitude negative (if num = 0 then 0 else f.round num den)

def ofInt (n : Int) : Binary f := ofQuotient (n < 0) n.natAbs 1

/-- The number nearest to a decimal `digits * 10 ^ exponent`. Exponents whose decimals lie beyond
every format of at most eleven exponent bits are answered without computing the power. -/
def ofDecimal (negative : Bool) (digits : Nat) (exponent : Int) : Binary f :=
  if digits = 0 then ofMagnitude negative 0
  else if 400 < exponent then ofMagnitude negative f.infinity
  else if exponent + Nat.log2 digits < -400 then ofMagnitude negative 0
  else if exponent < 0 then ofQuotient negative digits (Nat.pow 10 exponent.natAbs)
  else ofQuotient negative (digits * Nat.pow 10 exponent.natAbs) 1

/-- The number with the same magnitude and a given sign. -/
def withSign (negative : Bool) (x : Binary f) : Binary f := ofMagnitude negative x.magnitude

/-- The number nearest to the product of two finite numbers. -/
def mul (x y : Binary f) : Binary f :=
  let (m, d) := x.unpack
  let (n, e) := y.unpack
  let (num, den) := FloatFormat.scaled (m * n) 1 (-(d + e))
  ofQuotient (x.isNegative != y.isNegative) num den

/-- The number nearest to the quotient of two finite numbers, the second not zero. -/
def div (x y : Binary f) : Binary f :=
  let (m, d) := x.unpack
  let (n, e) := y.unpack
  let (num, den) := FloatFormat.scaled m n (e - d)
  ofQuotient (x.isNegative != y.isNegative) num den

/-- The nearest number of another format. Not-a-number stays so, keeps the high bits of its
fraction and becomes quiet. -/
def convert (g : FloatFormat) (x : Binary f) : Binary g :=
  if x.isNaN then
    let low := x.magnitude % f.steps
    let moved := low * g.steps / f.steps
    ofMagnitude x.isNegative (g.infinity + (moved ||| g.quiet))
  else if x.isFinite then
    let (m, e) := x.unpack
    let (num, den) := FloatFormat.scaled m 1 (-e)
    ofQuotient x.isNegative num den
  else ofMagnitude x.isNegative g.infinity

end Binary
end RecordTape
