import RecordTape.Capacity
import RecordTape.Sink
/-!
# The buffered encoder

An encoder gathers bytes and hands them to a sink when it holds at least its size of them, or when
it is flushed. It is bound to one sink at a time; what a binding leaves unflushed is dropped by the
next. A drain that fails keeps the whole buffer, even if the sink took part of it.
-/

namespace RecordTape

/-- A buffer and the number of bytes at which it is drained. -/
structure Encoder where
  buffer : Bytes
  size : Nat
  size_pos : 0 < size

namespace Encoder

def defaultSize : Nat := 2048

/-- An empty encoder of a size; there is none smaller than one byte. -/
def ofSize (size : Nat) : Encoder := ⟨[], max size 1, by omega⟩

def default : Encoder := ofSize defaultSize

/-- An empty encoder of a size, once there is room for its buffer. -/
def create (size : Nat) : Except Fault Encoder := do
  Capacity.reserve size
  return ofSize size

end Encoder

structure Binding (σ : Type := Sink) where
  encoder : Encoder
  sink : σ

variable {σ : Type}

namespace Encoder

/-- Binds an encoder to a sink; the buffer starts empty. -/
def bind (e : Encoder) (sink : σ) : Binding σ := ⟨{ e with buffer := [] }, sink⟩

end Encoder

namespace Binding

def buffered (b : Binding σ) : Nat := b.encoder.buffer.length

/-- Adds bytes without touching the sink. -/
def append (b : Binding σ) (data : Bytes) : Binding σ :=
  { b with encoder := { b.encoder with buffer := b.encoder.buffer ++ data } }

theorem append_nil (b : Binding σ) : b.append [] = b := by
  unfold append
  rw [List.append_nil]

theorem append_append (b : Binding σ) (front back : Bytes) :
    (b.append front).append back = b.append (front ++ back) := by
  unfold append
  rw [List.append_assoc]

variable [ByteSink σ]

/-- Hands every byte that waits to the sink. -/
def drain (b : Binding σ) : Except IoError Unit × Binding σ :=
  match ByteSink.writeAll b.sink b.encoder.buffer with
  | (.ok (), sink) => (.ok (), ⟨{ b.encoder with buffer := [] }, sink⟩)
  | (.error e, sink) => (.error e, { b with sink := sink })

def drainIfFull (b : Binding σ) : Except IoError Unit × Binding σ :=
  if b.encoder.size ≤ b.buffered then b.drain else (.ok (), b)

/-- Adds bytes, and drains if the buffer is full. -/
def write (b : Binding σ) (data : Bytes) : Except IoError Unit × Binding σ :=
  (b.append data).drainIfFull

/-- Drains, and flushes the sink once that is done. -/
def flush (b : Binding σ) : Except IoError Unit × Binding σ :=
  match b.drain with
  | (.ok (), b) =>
    let (result, sink) := ByteSink.flush b.sink
    (result, { b with sink := sink })
  | (.error e, b) => (.error e, b)

end Binding
end RecordTape
