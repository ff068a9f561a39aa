/-!
# Faults

A computation stops early in one of two ways: with an error, which is reported to the caller and
has a message, or with a fault, which ends the program. The faults are the conditions that the
record format leaves without an answer.
-/

namespace RecordTape

/-- A condition that ends the program. -/
inductive Fault where
  /-- The name or an alias of a definition is no name. -/
  | illFormedName (text : String)
  /-- A size, precision or scale of `2^63` or more in a canonical form. -/
  | oversizedNumber (n : Nat)
  /-- A branch tried while searching a union cannot be bound. -/
  | unboundBranch
  /-- A union without branches was asked for its first one. -/
  | emptyUnion
  /-- A value was written as a branch that its union does not have. -/
  | noBranchAt (index : Nat)
  /-- A decimal needs more bytes than its fixed base has. -/
  | decimalTooWide (size : Nat)
  /-- The number of bits of a decimal does not fit a 32-bit integer. -/
  | bitLengthOverflow (length : Nat)
  /-- A default contains itself. -/
  | endlessDefault
  /-- Room for `2^63` bytes or more was asked for. -/
  | noRoom (size : Nat)
  /-- The position just behind the last symbol of an enumeration was read. -/
  | symbolBehind (index : Nat)
  /-- The count of a block that was read has no opposite. -/
  | blockCountOverflow
  /-- A value that was read contains itself. -/
  | endlessValue
  /-- More was taken off a count than it held. -/
  | countBelowZero
deriving DecidableEq, Repr

inductive Stop (ε : Type) where
  | error (cause : ε)
  | fault (f : Fault)
deriving DecidableEq, Repr

namespace Stop

/-- The same stop with another description of its error. -/
def map {ε δ : Type} (f : ε → δ) : Stop ε → Stop δ
  | .error cause => .error (f cause)
  | .fault x => .fault x

end Stop

/-- A result, an error or a fault. -/
abbrev Outcome (ε α : Type) := Except (Stop ε) α

namespace Outcome

def mapError {ε δ α : Type} (f : ε → δ) : Outcome ε α → Outcome δ α
  | .ok a => .ok a
  | .error s => .error (s.map f)

def fail {ε α : Type} (cause : ε) : Outcome ε α := .error (.error cause)

def crash {ε α : Type} (f : Fault) : Outcome ε α := .error (.fault f)

end Outcome
end RecordTape
