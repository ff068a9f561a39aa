import RecordTape.Number.Binary
/-!
# Shortest decimals

The decimal text of a floating-point number: the fewest digits that read back as the number, and of
those the nearest to it. `shortest` finds the digits on decimal grids from coarse to fine, and a
`DecimalStyle` says how digits and exponent are laid out.
-/

namespace RecordTape

/-- The reals that round to a number, and the number itself, as naturals over one denominator. -/
structure RoundingInterval where
  low : Nat
  value : Nat
  high : Nat
  denominator : Nat
  /-- The ends round to the number as well. -/
  closed : Bool

namespace RoundingInterval

/-- The interval of `m * 2 ^ e`. Below the least mantissa of a binade the neighbour is only half as
far away. -/
def ofParts (f : FloatFormat) (m : Nat) (e : Int) : RoundingInterval :=
  let below := if m = f.steps ∧ f.least < e then 1 else 2
  let (scale, den) := FloatFormat.scaled 1 1 (2 - e)
  ⟨(4 * m - below) * scale, 4 * m * scale, (4 * m + 2) * scale, den, m % 2 = 0⟩

/-- The interval holds `d * 10 ^ k`. -/
def holds (i : RoundingInterval) (d unit factor : Nat) : Bool :=
  let x := d * unit
  if i.closed then i.low * factor ≤ x && x ≤ i.high * factor
  else i.low * factor < x && x < i.high * factor

/-- The point of the grid `10 ^ k` that lies in the interval and is nearest to the number, a tie
going to the even one. -/
def onGrid (i : RoundingInterval) (k : Int) : Option Nat :=
  let unit := if k < 0 then i.denominator else i.denominator * Nat.pow 10 k.natAbs
  let factor := if k < 0 then Nat.pow 10 k.natAbs else 1
  let v := i.value * factor
  let d := v / unit
  let r := v % unit
  match i.holds d unit factor, i.holds (d + 1) unit factor with
  | false, false => none
  | true, false => some d
  | false, true => some (d + 1)
  | true, true => some (if 2 * r < unit || (2 * r == unit && d % 2 == 0) then d else d + 1)

/-- Searches the grids from `10 ^ k` downwards. -/
def search (i : RoundingInterval) : (grids : Nat) → (k : Int) → Nat × Int
  | 0, k => (0, k)
  | n + 1, k =>
    match i.onGrid k with
    | some d => (d, k)
    | none => i.search n (k - 1)

end RoundingInterval

/-- The fewest digits `d` with an exponent `k` such that `d * 10 ^ k` reads back as `m * 2 ^ e`. The
first grid is coarser than the number, and twenty-five grids reach past seventeen digits. -/
def shortest (f : FloatFormat) (m : Nat) (e : Int) : Nat × Int :=
  let top := (Nat.log2 m + e) * 30103 / 100000 + 1
  (RoundingInterval.ofParts f m e).search 25 top

/-- How a decimal is laid out: the positions of the point for which it is written without an
exponent, and the look of the exponent elsewhere. Position `p` puts the number into
`[10 ^ (p - 1), 10 ^ p)`. -/
structure DecimalStyle where
  leastPoint : Int
  greatestPoint : Int
  /-- An exponent that is not negative has a plus before it. -/
  plus : Bool

namespace DecimalStyle

/-- Digits with a point put in at `point`, and at least one digit on each side of it. -/
def positional (digits : List Char) (point : Int) : List Char :=
  if point ≤ 0 then '0' :: '.' :: List.replicate point.natAbs '0' ++ digits
  else
    let n := point.toNat
    if digits.length ≤ n then digits ++ List.replicate (n - digits.length) '0' ++ ['.', '0']
    else digits.take n ++ '.' :: digits.drop n

/-- One digit before the point, no point after a single digit, and the exponent. -/
def exponential (style : DecimalStyle) (digits : List Char) (point : Int) : List Char :=
  let mantissa := match digits with
    | [] => []
    | [d] => [d]
    | d :: rest => d :: '.' :: rest
  let sign := if style.plus && 1 ≤ point then ['+'] else []
  mantissa ++ 'e' :: sign ++ (toString (point - 1)).toList

def text (style : DecimalStyle) {f : FloatFormat} (x : Binary f) : String :=
  let sign := if x.isNegative then ['-'] else []
  let body :=
    if x.magnitude = 0 then ['0', '.', '0']
    else
      let (m, e) := x.unpack
      let (d, k) := shortest f m e
      let digits := (toString d).toList
      let point := k + digits.length
      if style.leastPoint ≤ point && point ≤ style.greatestPoint then positional digits point
      else style.exponential digits point
  String.ofList (sign ++ body)

end DecimalStyle
end RecordTape
