import RecordTape.Value.Basic
/-!
# Narrowing

Resolution cuts longs down to ints by dropping their high half. The check here holds the value
before resolution against the value after it, and finds a long that did not survive. Positions are
matched through arrays by index, through maps and records by name, and through unions by their
content.
-/

namespace RecordTape.Value

mutual

def containsLong : Value → Bool
  | .long _ => true
  | .union _ v => containsLong v
  | .array items => anyLong items
  | .map entries => anyEntryLong entries
  | .record fields => anyEntryLong fields
  | _ => false

def anyLong : List Value → Bool
  | [] => false
  | v :: rest => containsLong v || anyLong rest

def anyEntryLong : List (String × Value) → Bool
  | [] => false
  | (_, v) :: rest => containsLong v || anyEntryLong rest

end

/-- The entries that a map or record has; the first of a name counts. -/
def entry? (name : String) : Value → Option Value
  | .map entries => entries.lookup name
  | .record fields => fields.lookup name
  | _ => none

/-- The int equals the long. -/
def checkInt (n : Int64) (i : Int32) : Except Int64 Unit :=
  if i.toInt64 = n then .ok () else .error n

mutual

/-- Finds a long of `given` that `resolved` does not have unchanged. -/
def checkNarrowing (given : Value) : (resolved : Value) → Except Int64 Unit
  | .int i => (match given with
    | .long n => checkInt n i
    | _ => .ok ())
  | .intTime _ i => (match given with
    | .long n => checkInt n i
    | _ => .ok ())
  | .union _ resolved => checkNarrowing given.content resolved
  | .array resolved => (match given with
    | .array givens => checkItems givens resolved
    | _ => .ok ())
  | .map resolved => (match given with
    | .map _ => checkEntries given resolved
    | _ => .ok ())
  | .record resolved => (match given with
    | .map _ => checkEntries given resolved
    | .record _ => checkEntries given resolved
    | _ => .ok ())
  | _ => .ok ()

/-- The items of two arrays, pair by pair. -/
def checkItems : (givens resolved : List Value) → Except Int64 Unit
  | g :: givens, r :: resolved => do
    checkNarrowing g r
    checkItems givens resolved
  | _, _ => .ok ()

/-- The entries of two maps or records that have the same name. -/
def checkEntries (given : Value) : (resolved : List (String × Value)) → Except Int64 Unit
  | [] => .ok ()
  | (name, r) :: resolved => do
    match entry? name given with
    | some g => checkNarrowing g r
    | none => .ok ()
    checkEntries given resolved

end

end RecordTape.Value
