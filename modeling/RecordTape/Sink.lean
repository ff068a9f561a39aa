import RecordTape.Error
/-!
# Sinks

What bytes are written to. `ByteSink` is what is asked of it: one write may take a part of the
bytes, be interrupted or be refused, and a flush may fail. `writeAll` repeats the write until all is
accepted or the sink refuses. `Sink` is a sink with all the ways in which real ones misbehave:
writes are interrupted at any time and take any part of the bytes, and flushes fail or succeed in
any order, until the sink has reached its limit and takes nothing more.
-/

namespace RecordTape

inductive WriteResult where
  | accepted (n : Nat)
  | interrupted
  | refused (e : IoError)

/-- What bytes can be written to. Writes are not interrupted for ever. -/
class ByteSink (σ : Type) where
  write : σ → Bytes → WriteResult × σ
  flush : σ → Except IoError Unit × σ
  /-- The number of writes that are still to be interrupted. -/
  interruptions : σ → Nat
  interruptions_of_interrupted {s s' : σ} {data : Bytes} :
    write s data = (.interrupted, s') → interruptions s' < interruptions s
  interruptions_of_accepted {s s' : σ} {data : Bytes} {n : Nat} :
    write s data = (.accepted n, s') → interruptions s' ≤ interruptions s

namespace ByteSink

variable {σ : Type} [ByteSink σ]

/-- Writes until all is accepted. Nothing is written of no bytes; an interrupted write is repeated;
a write that accepts nothing is an error. -/
def writeAll (s : σ) (data : Bytes) : Except IoError Unit × σ :=
  if data.isEmpty then (.ok (), s)
  else match _h : write s data with
    | (.interrupted, s') => writeAll s' data
    | (.accepted n, s') =>
      if 0 < n then writeAll s' (data.drop n) else (.error .wroteNothing, s')
    | (.refused e, s') => (.error e, s')
termination_by interruptions s + data.length
decreasing_by
  · have := interruptions_of_interrupted _h; omega
  · have := interruptions_of_accepted _h
    have : data ≠ [] := by simpa using ‹¬data.isEmpty = true›
    have := List.length_pos_iff.mpr this
    simp only [List.length_drop]
    omega

end ByteSink

/-- A write that is not interrupted, and the interruptions between it and the next one. -/
structure Turn where
  /-- The write accepts one byte, and this many more. -/
  more : Nat
  interrupts : Nat

/-- A byte sink and what has happened to it. -/
structure Sink where
  /-- The number of bytes accepted in total; none for no limit. -/
  limit : Option Nat
  /-- The number of bytes accepted by one write; none for no limit. -/
  chunk : Option Nat
  /-- The number of writes that are interrupted before the next that is not. -/
  interrupts : Nat
  /-- What the next writes accept at most, one after the other. -/
  turns : List Turn
  /-- At the limit a write accepts nothing instead of failing. -/
  stalls : Bool
  /-- The error of a write at the limit. -/
  refusal : IoError
  /-- The text of the error of the next flush, if it fails. -/
  flushFailure : Option String
  /-- The same for the flushes after it; those after the last of them are like it. -/
  laterFlushes : List (Option String)
  accepted : Bytes
  /-- The size of each write that accepted something, in order. -/
  writes : List Nat
  flushes : Nat

namespace Sink

def memory : Sink :=
  { limit := none, chunk := none, interrupts := 0, turns := [], stalls := false
    refusal := ⟨.writeZero, "tape full"⟩, flushFailure := none, laterFlushes := []
    accepted := [], writes := [], flushes := 0 }

def space (s : Sink) (data : Bytes) : Nat :=
  let n := match s.limit with
    | some limit => min data.length (limit - s.accepted.length)
    | none => data.length
  match s.chunk with
  | some chunk => min n chunk
  | none => n

/-- The number of bytes of `data` that the next write accepts if it is not interrupted. -/
def room (s : Sink) (data : Bytes) : Nat :=
  match s.turns with
  | t :: _ => min (s.space data) (t.more + 1)
  | [] => s.space data

def isFull (s : Sink) : Bool :=
  match s.limit with
  | some limit => limit ≤ s.accepted.length
  | none => false

/-- The sink when it is the turn of the write after this one. -/
def nextTurn (s : Sink) : Sink :=
  match s.turns with
  | t :: rest => { s with interrupts := t.interrupts, turns := rest }
  | [] => s

/-- The sink after accepting bytes. -/
def accept (s : Sink) (data : Bytes) : Sink :=
  { s.nextTurn with accepted := s.accepted ++ data, writes := s.writes ++ [data.length] }

/-- One write: interruptions come first, then the limit, then the part that fits. -/
def write (s : Sink) (data : Bytes) : WriteResult × Sink :=
  if 0 < s.interrupts then (.interrupted, { s with interrupts := s.interrupts - 1 })
  else if s.isFull then
    if s.stalls then (.accepted 0, s) else (.refused s.refusal, s)
  else
    let n := s.room data
    if n = 0 then (.accepted 0, s) else (.accepted n, s.accept (data.take n))

def flush (s : Sink) : Except IoError Unit × Sink :=
  let s' := { s with
    flushes := s.flushes + 1
    flushFailure := s.laterFlushes.head?.getD s.flushFailure
    laterFlushes := s.laterFlushes.tail }
  match s.flushFailure with
  | some text => (.error ⟨.other, text⟩, s')
  | none => (.ok (), s')

def turnInterrupts : List Turn → Nat
  | [] => 0
  | t :: rest => t.interrupts + turnInterrupts rest

/-- The interruptions that are still to come, now and after each turn. -/
def interruptions (s : Sink) : Nat := s.interrupts + turnInterrupts s.turns

theorem interruptions_nextTurn (s : Sink) : s.nextTurn.interruptions ≤ s.interruptions := by
  unfold nextTurn
  split
  · rename_i t rest h
    simp only [interruptions, h, turnInterrupts]
    omega
  · exact Nat.le_refl _

/-- An interrupted write uses up one interruption. -/
theorem interruptions_of_write_interrupted {s s' : Sink} {data : Bytes}
    (h : s.write data = (.interrupted, s')) : s'.interruptions < s.interruptions := by
  unfold write at h
  split at h
  · cases h
    simp only [interruptions]
    omega
  · split at h
    · split at h <;> cases h
    · simp only at h; split at h <;> cases h

theorem interruptions_of_write_accepted {s s' : Sink} {data : Bytes} {n : Nat}
    (h : s.write data = (.accepted n, s')) : s'.interruptions ≤ s.interruptions := by
  unfold write at h
  split at h
  · cases h
  · split at h
    · split at h <;> cases h; exact Nat.le_refl _
    · simp only at h
      split at h <;> cases h
      · exact Nat.le_refl _
      · exact s.interruptions_nextTurn

instance : ByteSink Sink where
  write := write
  flush := flush
  interruptions := interruptions
  interruptions_of_interrupted := interruptions_of_write_interrupted
  interruptions_of_accepted := interruptions_of_write_accepted

@[simp] theorem byteSink_write (s : Sink) (data : Bytes) :
    ByteSink.write s data = s.write data := rfl

@[simp] theorem byteSink_flush (s : Sink) : ByteSink.flush s = s.flush := rfl

end Sink
end RecordTape
