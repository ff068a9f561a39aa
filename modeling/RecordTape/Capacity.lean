import RecordTape.Fault
/-!
# Room for bytes

Buffers have their room set aside before anything is put into them. The room asked for does not
change what is written, but a size that no address space holds is a fault.
-/

namespace RecordTape.Capacity

/-- The least number of bytes for which no room can be set aside. -/
def limit : Nat := 0x8000000000000000

/-- Sets room for a number of bytes aside. -/
def reserve (size : Nat) : Except Fault Unit :=
  if size < limit then .ok () else .error (.noRoom size)

theorem reserve_of_lt {size : Nat} (h : size < limit) : reserve size = .ok () := if_pos h

theorem reserve_of_le {size : Nat} (h : limit ≤ size) : reserve size = .error (.noRoom size) :=
  if_neg (Nat.not_lt.mpr h)

end RecordTape.Capacity
