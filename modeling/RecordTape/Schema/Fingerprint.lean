import RecordTape.Bytes
import RecordTape.Schema.Canonical
/-!
# Fingerprints

The 64-bit remainder that identifies a schema: the bytes of the canonical form are taken one by one
into a register, low bit first, and divided by a fixed polynomial.
-/

namespace RecordTape.Fingerprint

/-- The remainder of no bytes, which is also the polynomial. -/
def start : UInt64 := 0xc15d213aa4d7a795

/-- Divides the lowest bit away. -/
def shift (r : UInt64) : UInt64 :=
  (r >>> 1) ^^^ (if r &&& 1 = 1 then start else 0)

def step (r : UInt64) (b : UInt8) : UInt64 :=
  let low := (r ^^^ b.toUInt64) &&& 0xff
  (r >>> 8) ^^^ shift (shift (shift (shift (shift (shift (shift (shift low)))))))

def ofBytes (b : Bytes) : UInt64 := b.foldl step start

/-- The bytes before a single value: a mark of two bytes and the fingerprint of its schema, least
significant byte first. -/
def header (canonical : String) : Bytes :=
  [0xC3, 0x01] ++ Bytes.littleEndian 8 (ofBytes (Bytes.ofText canonical)).toNat

def headerLength : Nat := 10

theorem length_header (canonical : String) : (header canonical).length = headerLength := by
  simp [header, headerLength]

end RecordTape.Fingerprint
