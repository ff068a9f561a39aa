import RecordTape.Hex
/-!
# Blobs in a file

Two ways to put the blobs of records one after the other: behind their length in four bytes, most
significant first, or as lines of hexadecimal digits.
-/

namespace RecordTape.Blob

def lengthBytes : Nat := 4

/-- A blob behind its length. -/
def frame (blob : Bytes) : Bytes := Bytes.bigEndian lengthBytes blob.length ++ blob

def hexLine (blob : Bytes) : Bytes := Bytes.ofText (Hex.encode blob ++ "\n")

def unframe? (b : Bytes) : Option (Bytes × Bytes) :=
  let n := Bytes.ofBigEndian (b.take lengthBytes)
  let rest := b.drop lengthBytes
  if lengthBytes ≤ b.length ∧ n ≤ rest.length then some (rest.take n, rest.drop n) else none

/-- The blobs of framed bytes, at most `limit` of them. -/
def unframeUpTo : (limit : Nat) → Bytes → Option (List Bytes)
  | _, [] => some []
  | 0, _ :: _ => none
  | limit + 1, b => do
    let (blob, rest) ← unframe? b
    return blob :: (← unframeUpTo limit rest)

/-- The blobs of framed bytes. Each takes up the bytes of its length at least. -/
def unframe (b : Bytes) : Option (List Bytes) := unframeUpTo b.length b

end RecordTape.Blob
