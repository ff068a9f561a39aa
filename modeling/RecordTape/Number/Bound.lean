/-!
# Bounds of words

Where the integers of 32 and 64 bits end, written out so that arithmetic on them decides by itself.
-/

namespace RecordTape

/-- Signed 32-bit integers lie from the negative of this number up to below it. -/
abbrev int32Bound : Int := 0x80000000

/-- Signed 64-bit integers lie from the negative of this number up to below it. -/
abbrev int64Bound : Int := 0x8000000000000000

/-- Unsigned 64-bit integers lie below this number. -/
abbrev uint64Bound : Int := 0x10000000000000000

end RecordTape
