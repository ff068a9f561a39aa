import RecordTape.Hex
import RecordTape.Number.Binary
import RecordTape.Number.Bound
/-!
# Numbers and dates of TOML

A word that starts with a digit or sign is an integer, a float, or a date and time. Integers are
64-bit; an underscore may stand between two digits, and a decimal has no leading zero.
-/

namespace RecordTape.Toml

def digitValue? (base : Nat) (c : Char) : Option Nat :=
  (Hex.value? c).bind fun d => if d < base then some d else none

/-- The digits of a number, one or more, with single underscores between them. -/
def digits? (base : Nat) : List Char → Option (List Nat)
  | [] => none
  | [c] => (digitValue? base c).map ([·])
  | c :: '_' :: rest => do return (← digitValue? base c) :: (← digits? base rest)
  | c :: rest => do return (← digitValue? base c) :: (← digits? base rest)

def ofDigits (base : Nat) (digits : List Nat) : Nat :=
  digits.foldl (fun n d => n * base + d) 0

/-- The digits of a decimal without a leading zero. -/
def decimalDigits? (cs : List Char) : Option (List Nat) := do
  match ← digits? 10 cs with
  | 0 :: _ :: _ => none
  | ds => some ds

def splitSign : List Char → Bool × List Char
  | '-' :: rest => (true, rest)
  | '+' :: rest => (false, rest)
  | rest => (false, rest)

def inRange (n : Int) : Option Int :=
  if -int64Bound ≤ n ∧ n < int64Bound then some n else none

def integer? (word : List Char) : Option Int :=
  match word with
  | '0' :: 'x' :: rest => (digits? 16 rest).bind fun ds => inRange (ofDigits 16 ds)
  | '0' :: 'o' :: rest => (digits? 8 rest).bind fun ds => inRange (ofDigits 8 ds)
  | '0' :: 'b' :: rest => (digits? 2 rest).bind fun ds => inRange (ofDigits 2 ds)
  | word => do
    let (negative, rest) := splitSign word
    let n : Int := ofDigits 10 (← decimalDigits? rest)
    inRange (if negative then -n else n)

/-- An exponent, after its letter. -/
def exponent? (cs : List Char) : Option Int := do
  let (negative, rest) := splitSign cs
  let n : Int := ofDigits 10 (← digits? 10 rest)
  return if negative then -n else n

/-- A float: a fraction, an exponent or both after the whole part, or one of the special words. A
positive float beyond the doubles is refused. -/
def isFloat (word : List Char) : Bool :=
  let (negative, rest) := splitSign word
  if rest = ['i', 'n', 'f'] || rest = ['n', 'a', 'n'] then true
  else
    let isMark (c : Char) : Bool := c == '.' || c == 'e' || c == 'E'
    let whole := rest.takeWhile (!isMark ·)
    let parts : Option (List Char × List Char) := match rest.dropWhile (!isMark ·) with
      | '.' :: more =>
        some (more.takeWhile (!isMark ·), more.dropWhile (!isMark ·))
      | more => if more.isEmpty then none else some ([], more)
    let read : Option Bool := do
      let (fraction, tail) ← parts
      let whole ← decimalDigits? whole
      let pointed := (rest.dropWhile (!isMark ·)).head? == some '.'
      let fraction ← if pointed then digits? 10 fraction else some []
      let exponent ← match tail with
        | [] => if pointed then some 0 else none
        | '.' :: _ => none
        | _ :: more => exponent? more
      let x : Binary64 := Binary.ofDecimal negative (ofDigits 10 (whole ++ fraction))
        (exponent - fraction.length)
      return negative || x.isFinite
    read.getD false

def fixedDigits (count : Nat) (cs : List Char) : Option (Nat × List Char) := do
  let front := cs.take count
  if front.length = count && front.all Char.isDigit then
    some (ofDigits 10 (← digits? 10 front), cs.drop count)
  else none

def expect (c : Char) : List Char → Option (List Char)
  | d :: rest => if d = c then some rest else none
  | [] => none

def daysOf (year month : Nat) : Nat :=
  if month = 2 then
    if year % 4 = 0 ∧ (year % 100 ≠ 0 ∨ year % 400 = 0) then 29 else 28
  else if month = 4 ∨ month = 6 ∨ month = 9 ∨ month = 11 then 30
  else 31

def date? (cs : List Char) : Option (List Char) := do
  let (year, cs) ← fixedDigits 4 cs
  let (month, cs) ← fixedDigits 2 (← expect '-' cs)
  let (day, cs) ← fixedDigits 2 (← expect '-' cs)
  if 1 ≤ month ∧ month ≤ 12 ∧ 1 ≤ day ∧ day ≤ daysOf year month then some cs else none

/-- A time of day at the front, with an optional fraction of a second; a leap second is allowed. -/
def time? (cs : List Char) : Option (List Char) := do
  let (hour, cs) ← fixedDigits 2 cs
  let (minute, cs) ← fixedDigits 2 (← expect ':' cs)
  let (second, cs) ← fixedDigits 2 (← expect ':' cs)
  if hour < 24 ∧ minute < 60 ∧ second ≤ 60 then
    match cs with
    | '.' :: rest =>
      if (rest.takeWhile Char.isDigit).isEmpty then none else some (rest.dropWhile Char.isDigit)
    | cs => some cs
  else none

/-- An offset from universal time makes up the rest of a word, or there is none. -/
def isOffset (cs : List Char) : Bool :=
  match cs with
  | [] => true
  | ['Z'] | ['z'] => true
  | sign :: rest =>
    (sign == '+' || sign == '-') &&
      (do
        let (hour, rest) ← fixedDigits 2 rest
        let (minute, rest) ← fixedDigits 2 (← expect ':' rest)
        return hour < 24 && minute < 60 && rest.isEmpty).getD false

/-- A date, a time, or both with an optional offset. -/
def isMoment (word : List Char) : Bool :=
  match date? word with
  | some [] => true
  | some (c :: rest) =>
    (c == 'T' || c == 't' || c == ' ') && ((time? rest).map isOffset).getD false
  | none => time? word == some []

end RecordTape.Toml
