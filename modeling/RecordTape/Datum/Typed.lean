import RecordTape.Datum.Basic
/-!
# Typed data

Data as programs hold them: integers of several widths, options, sequences, structures and variants.
Two data are equal only if they are built in the same way, so the same integer in two widths is two
data; floating-point numbers are compared as numbers.
-/

namespace RecordTape

inductive IntWidth where
  | int8
  | int16
  | int32
  | int64
  | uint8
  | uint16
  | uint32
  | uint64
deriving DecidableEq, Repr

inductive Typed where
  | unit
  | bool (b : Bool)
  | int (width : IntWidth) (n : Int)
  | single (x : Binary32)
  | double (x : Binary64)
  | char (c : Char)
  | string (s : String)
  | bytes (b : Bytes)
  | none
  | some (d : Typed)
  | seq (items : List Typed)
  | tuple (items : List Typed)
  | map (entries : List (Typed × Typed))
  | struct (fields : List (String × Typed))
  | newtype (d : Typed)
  | unitVariant (index : Nat) (name : String)
  | newtypeVariant (index : Nat) (name : String) (d : Typed)
  | tupleVariant (index : Nat) (name : String) (items : List Typed)
  | structVariant (index : Nat) (name : String) (fields : List (String × Typed))
  /-- A datum that refuses to become a value. -/
  | refuse (text : String)
deriving Inhabited

namespace Typed

/-- The value of an integer: an int for the widths up to 32 bits if it fits, else a long. -/
def intToValue : IntWidth → Int → Except DatumError Value
  | .int64, n => .ok (.long (Int64.ofInt n))
  | .uint64, n => if n < int64Bound then .ok (.long (Int64.ofInt n)) else .error .unsignedTooLarge
  | .uint32, n =>
    .ok (if n < int32Bound then .int (Int32.ofInt n) else .long (Int64.ofInt n))
  | _, n => .ok (.int (Int32.ofInt n))

/-- The value of a variant with content: its name and its content as two fields. -/
def variant (index : Nat) (name : String) (content : Value) : Value :=
  .record [("type", .enum index name), ("value", content)]

mutual

def toValue : Typed → Except DatumError Value
  | .unit => .ok .null
  | .bool b => .ok (.boolean b)
  | .int width n => intToValue width n
  | .single x => .ok (.float x)
  | .double x => .ok (.double x)
  | .char c => .ok (.string (String.singleton c))
  | .string s => .ok (.string s)
  | .bytes b => .ok (.bytes b)
  | .none => .ok (.union 0 .null)
  | .some d => do return .union 1 (← toValue d)
  | .seq items => do return .array (← itemsToValues items)
  | .tuple items => do return .array (← itemsToValues items)
  | .map entries => do return Value.ofEntries (← entriesToValues entries)
  | .struct fields => do return .record (← fieldsToValues fields)
  | .newtype d => toValue d
  | .unitVariant _ name => .ok (.string name)
  | .newtypeVariant i name d => do return variant i name (.union i (← toValue d))
  | .tupleVariant i name items => do
    return variant i name (.array ((← itemsToValues items).map (.union i)))
  | .structVariant i name fields => do
    return variant i name (.union i (.record (← fieldsToValues fields)))
  | .refuse text => .error (.refused text)

def itemsToValues : List Typed → Except DatumError (List Value)
  | [] => .ok []
  | d :: rest => do return (← toValue d) :: (← itemsToValues rest)

/-- The values of the entries of a map; each key must be a text. -/
def entriesToValues : List (Typed × Typed) → Except DatumError (List (String × Value))
  | [] => .ok []
  | (k, d) :: rest => do
    match ← toValue k with
    | .string key => return (key, ← toValue d) :: (← entriesToValues rest)
    | _ => .error .keyNotText

def fieldsToValues : List (String × Typed) → Except DatumError (List (String × Value))
  | [] => .ok []
  | (name, d) :: rest => do return (name, ← toValue d) :: (← fieldsToValues rest)

end

mutual

def same : Typed → Typed → Bool
  | .unit, .unit => true
  | .bool a, .bool b => a == b
  | .int v m, .int w n => v == w && m == n
  | .single x, .single y => x.same y
  | .double x, .double y => x.same y
  | .char a, .char b => a == b
  | .string a, .string b => a == b
  | .bytes a, .bytes b => a == b
  | .none, .none => true
  | .some a, .some b => same a b
  | .seq as, .seq bs => sameItems as bs
  | .tuple as, .tuple bs => sameItems as bs
  | .map as, .map bs => sameEntries as bs
  | .struct as, .struct bs => sameFields as bs
  | .newtype a, .newtype b => same a b
  | .unitVariant i m, .unitVariant j n => i == j && m == n
  | .newtypeVariant i m a, .newtypeVariant j n b => i == j && m == n && same a b
  | .tupleVariant i m as, .tupleVariant j n bs => i == j && m == n && sameItems as bs
  | .structVariant i m as, .structVariant j n bs => i == j && m == n && sameFields as bs
  | .refuse a, .refuse b => a == b
  | _, _ => false

def sameItems : List Typed → List Typed → Bool
  | [], [] => true
  | a :: as, b :: bs => same a b && sameItems as bs
  | _, _ => false

def sameEntries : List (Typed × Typed) → List (Typed × Typed) → Bool
  | [], [] => true
  | (k, a) :: as, (l, b) :: bs => same k l && same a b && sameEntries as bs
  | _, _ => false

def sameFields : List (String × Typed) → List (String × Typed) → Bool
  | [], [] => true
  | (k, a) :: as, (l, b) :: bs => k == l && same a b && sameFields as bs
  | _, _ => false

end

instance : Datum Typed := ⟨toValue, same, fun _ => .listed⟩

@[simp] theorem arrangement_eq (d : Typed) : Datum.arrangement d = .listed := rfl

end Typed
end RecordTape
