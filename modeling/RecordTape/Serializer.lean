import RecordTape.Record
import RecordTape.Topic
import RecordTape.Writer
/-!
# The serializer

Appends the records of one topic to sinks. The bytes of the last key are kept, and used again for a
record whose key is equal; a new key replaces them as soon as it is encoded, whatever happens to the
rest of its record. An error may leave part of a record in the sink.
-/

namespace RecordTape

/-! ## Counting -/

/-- A sink inside of which there is another one, and the number of bytes that this has accepted. -/
structure CountingSink where
  inner : Sink
  written : Nat

namespace CountingSink

/-- One write to the sink inside. What it accepts is counted, after it is accepted. -/
def write (s : CountingSink) (data : Bytes) : WriteResult × CountingSink :=
  match s.inner.write data with
  | (.accepted n, inner) => (.accepted n, ⟨inner, s.written + n⟩)
  | (result, inner) => (result, { s with inner := inner })

def flush (s : CountingSink) : Except IoError Unit × CountingSink :=
  let (result, inner) := s.inner.flush
  (result, { s with inner := inner })

instance : ByteSink CountingSink where
  write := write
  flush := flush
  interruptions s := s.inner.interruptions
  interruptions_of_interrupted {s s' data} h := by
    unfold write at h
    split at h
    · cases h
    · rename_i result inner _ hinner
      obtain ⟨rfl, rfl⟩ := Prod.mk.inj h
      exact Sink.interruptions_of_write_interrupted hinner
  interruptions_of_accepted {s s' data n} h := by
    unfold write at h
    split at h
    · rename_i n inner hinner
      obtain ⟨-, rfl⟩ := Prod.mk.inj h
      exact Sink.interruptions_of_write_accepted hinner
    · rename_i result inner hne hinner
      obtain ⟨rfl, -⟩ := Prod.mk.inj h
      exact absurd rfl (hne n)

end CountingSink

/-! ## The state -/

structure CachedKey (κ : Type) where
  key : κ
  bytes : Bytes

structure Serializer (κ : Type) where
  topic : String
  config : SerializerConfig
  keyWriter : Writer
  valueWriter : Writer
  encoder : Encoder
  cache : Option (CachedKey κ)
  stats : Stats

/-- Why no serializer was made, and how many writers were asked for before. -/
structure Refusal where
  stop : Stop TapeError
  writersAsked : Nat

/-- What there is to tell about a call, step by step. -/
inductive KeyEvent where
  | hit
  /-- A key was encoded into this many bytes. -/
  | miss (length : Nat)
deriving DecidableEq, Repr

namespace Serializer

variable {κ ν : Type} [Datum κ] [Datum ν]

/-- A serializer for a topic. The tuning is checked first, then the schema of the keys, then that of
the values; room for the buffer comes last. -/
def create (κ : Type) (t : Topic) (config : SerializerConfig) : Except Refusal (Serializer κ) := do
  match config.validate with
  | .error e => throw ⟨.error (.config e), 0⟩
  | .ok () => pure ()
  let keyWriter ← match Writer.forSchema t.keySchema with
    | .error stop => throw ⟨stop.map .schemaBinding, 1⟩
    | .ok w => pure w
  let valueWriter ← match Writer.forSchema t.valueSchema with
    | .error stop => throw ⟨stop.map .schemaBinding, 2⟩
    | .ok w => pure w
  let encoder ← match Encoder.create config.encoderBufferSize with
    | .error f => throw ⟨.fault f, 2⟩
    | .ok e => pure e
  return ⟨t.name, config, keyWriter, valueWriter, encoder, none, Stats.zero⟩

/-- The bytes kept for a key, if they are those of an equal key. -/
def cached? (s : Serializer κ) (key : κ) : Option Bytes :=
  match s.cache with
  | some c => if Datum.same c.key key then some c.bytes else none
  | none => none

/-- The bytes of a key by itself, by way of the serializer's encoder. The room for them is set aside
first. -/
def encodeKey (s : Serializer κ) (key : κ) : Outcome TapeError Bytes × Serializer κ :=
  match Capacity.reserve s.config.initialKeyCapacity with
  | .error f => (.error (.fault f), s)
  | .ok () =>
    match s.keyWriter.write key (s.encoder.bind Sink.memory) with
    | (.error stop, w, b) => (.error stop, { s with keyWriter := w, encoder := b.encoder })
    | (.ok (), w, b) =>
      match b.flush with
      | (.error e, b) =>
        (.error (.error (.io e)), { s with keyWriter := w, encoder := b.encoder })
      | (.ok (), b) => (.ok b.sink.accepted, { s with keyWriter := w, encoder := b.encoder })

/-- The bytes of a record's key, kept or new. -/
def obtainKey (s : Serializer κ) (key : κ) :
    Outcome TapeError (Bytes × KeyEvent) × Serializer κ :=
  match if s.config.memoizeKeys then s.cached? key else none with
  | some bytes =>
    (.ok (bytes, .hit),
      { s with stats := { s.stats with keyCacheHits := s.stats.keyCacheHits + 1 } })
  | none =>
    match s.encodeKey key with
    | (.error stop, s) => (.error stop, s)
    | (.ok bytes, s) =>
      (.ok (bytes, .miss bytes.length),
        { s with
          stats := { s.stats with keyEncodings := s.stats.keyEncodings + 1 }
          cache := some ⟨key, bytes⟩ })

/-! ## Calls -/

section Calls

variable {σ : Type} [ByteSink σ]

/-- Writes a value to a sink, by way of the serializer's encoder. -/
def writeValue (s : Serializer κ) (value : ν) (sink : σ) :
    Outcome TapeError Unit × Serializer κ × σ :=
  match s.valueWriter.write value (s.encoder.bind sink) with
  | (.error stop, w, b) =>
    (.error stop, { s with valueWriter := w, encoder := b.encoder }, b.sink)
  | (.ok (), w, b) =>
    match b.flush with
    | (.error e, b) =>
      (.error (.error (.io e)), { s with valueWriter := w, encoder := b.encoder }, b.sink)
    | (.ok (), b) => (.ok (), { s with valueWriter := w, encoder := b.encoder }, b.sink)

/-- What a call leaves behind: its result, the states after it, and where its key came from if it
got that far. -/
structure Call (κ : Type) (σ : Type := Sink) where
  result : Outcome TapeError Unit
  serializer : Serializer κ
  sink : σ
  event : Option KeyEvent

/-- Writes header, key and value, and stops at the first that fails. -/
def writeRecord (s : Serializer κ) (r : Record κ ν) (sink : σ) : Call κ σ :=
  match ByteSink.writeAll sink emptyHeader with
  | (.error e, sink) => ⟨.error (.error (.io e)), s, sink, none⟩
  | (.ok (), sink) =>
    match s.obtainKey r.key with
    | (.error stop, s) => ⟨.error stop, s, sink, none⟩
    | (.ok (bytes, event), s) =>
      match ByteSink.writeAll sink bytes with
      | (.error e, sink) => ⟨.error (.error (.io e)), s, sink, some event⟩
      | (.ok (), sink) =>
        let (result, s, sink) := s.writeValue r.value sink
        ⟨result, s, sink, some event⟩

end Calls

/-- Appends a record to a sink and counts what came of it: the bytes that were accepted in any case,
the record if there was no error. -/
def serialize (s : Serializer κ) (r : Record κ ν) (sink : Sink) : Call κ :=
  let call := s.writeRecord r (CountingSink.mk sink 0)
  let stats := call.serializer.stats
  let stats := { stats with
    bytesWritten := stats.bytesWritten + call.sink.written
    records := stats.records + (if call.result.isOk then 1 else 0) }
  ⟨call.result, { call.serializer with stats := stats }, call.sink.inner, call.event⟩

end Serializer
end RecordTape
