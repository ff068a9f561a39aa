import RecordTape.Encoder
import RecordTape.Narrowing
import RecordTape.Schema.Fingerprint
import RecordTape.Value.Resolve
/-!
# Writers

A writer puts data into a bound encoder, each under the one schema the writer was made for. It keeps
a scratch that starts with the header of a single value; the datum is encoded behind the header and
the header is dropped on the way into the encoder. The encoder's sink is touched only after a datum
is complete, so an encoding error leaves the sink alone.
-/

namespace RecordTape

structure Writer where
  schema : Schema
  /-- The header, and after a failure what was encoded before it. -/
  scratch : Bytes
  /-- The number of data the writer was asked to write. -/
  calls : Nat

/-- Drops the header of a frame that arrives in pieces. `skip` is how much of it is still to come.
-/
structure HeaderFilter (σ : Type := Sink) where
  skip : Nat
  binding : Binding σ

variable {σ : Type}

namespace HeaderFilter

/-- What is still to come of the header once `n` more bytes of it are gone. -/
def skipAfter (f : HeaderFilter σ) (n : Nat) : Except Fault Nat :=
  if n ≤ f.skip then .ok (f.skip - n) else .error .countBelowZero

/-- Takes in one piece; all of it counts as accepted. -/
def write (f : HeaderFilter σ) (piece : Bytes) : Except Fault (WriteResult × HeaderFilter σ) := do
  let skipped := min f.skip piece.length
  let skip ← f.skipAfter skipped
  return (.accepted piece.length, ⟨skip, f.binding.append (piece.drop skipped)⟩)

end HeaderFilter

namespace Writer

def freshScratch (schema : Schema) : Outcome SchemaFailure Bytes := do
  let canonical ← match schema.canonical with
    | .ok text => pure text
    | .error f => .crash f
  match schema.names with
  | .ok _ => return Fingerprint.header canonical
  | .error e => .fail (.names e)

/-- A writer for a schema whose names can be bound. -/
def create (schema : Schema) : Outcome SchemaFailure Writer := do
  return ⟨schema, ← freshScratch schema, 0⟩

/-- A writer for a schema that is more than a reference. -/
def forSchema (schema : Schema) : Outcome SchemaFailure Writer :=
  match schema with
  | .ref name => .fail (.bareReference name)
  | schema => create schema

/-- The form a value takes under a schema that stands alone. -/
def resolveValue (schema : Schema) (v : Value) : Outcome EncodingFailure Value :=
  match schema.names with
  | .error e => .fail (.names e)
  | .ok names => (v.resolveWithin names schema.ns schema).mapError .mismatch

/-- The form a datum takes under a schema, in the order that its maps then have. Only a value that
holds a long is checked for narrowing. -/
def resolve {α : Type} [Datum α] (schema : Schema) (d : α) : Outcome EncodingFailure Value := do
  let v ← match Datum.toValue d with
    | .ok v => pure v
    | .error e => .fail (.datum e)
  let resolved := (Datum.arrangement d).arrange (← resolveValue schema v)
  if v.containsLong then
    match v.checkNarrowing resolved with
    | .ok () => return resolved
    | .error n => .fail (.narrowed n)
  else return resolved

/-- The bytes of a resolved value, if it is valid under the schema. -/
def encodeValue (schema : Schema) (v : Value) : Bytes × Option (Stop EncodingFailure) :=
  match schema.names with
  | .error e => ([], some (.error (.names e)))
  | .ok names =>
    match v.issues (Fallback.ofDepth (Value.defaultDepth names schema)) names schema.ns schema with
    | .error f => ([], some (.fault f))
    | .ok (i :: rest) => ([], some (.error (.issues (i :: rest))))
    | .ok [] =>
      let e := v.encode names schema.ns schema
      (e.bytes, e.stop.map (.map .encode))

/-- Encodes a resolved value behind the header in the scratch. -/
def encodeBehind (scratch : Bytes) (schema : Schema) (v : Value) :
    Bytes × Option (Stop EncodingFailure) :=
  if scratch.length = Fingerprint.headerLength then
    let (bytes, stop) := encodeValue schema v
    (scratch ++ bytes, stop)
  else (scratch, some (.error .scratch))

/-- Writes one datum. After a failure in encoding the scratch is made anew. -/
def write {α : Type} [Datum α] [ByteSink σ] (w : Writer) (d : α) (b : Binding σ) :
    Outcome TapeError Unit × Writer × Binding σ :=
  let w := { w with calls := w.calls + 1 }
  match resolve w.schema d with
  | .error stop => (.error (stop.map .encoding), w, b)
  | .ok v =>
    match encodeBehind w.scratch w.schema v with
    | (scratch, some stop) =>
      match freshScratch w.schema with
      | .error failure => (.error (failure.map .schemaBinding), { w with scratch := scratch }, b)
      | .ok fresh => (.error (stop.map .encoding), { w with scratch := fresh }, b)
    | (frame, none) =>
      -- one write is enough for the frame, since a piece is always accepted in full
      match (HeaderFilter.mk Fingerprint.headerLength b).write frame with
      | .error f => (.error (.fault f), w, b)
      | .ok (_, filtered) =>
        match filtered.binding.drainIfFull with
        | (.ok (), b) => (.ok (), w, b)
        | (.error e, b) => (.error (.error (.io e)), w, b)

def encode {α : Type} [Datum α] (w : Writer) (d : α) : Outcome TapeError Bytes × Writer :=
  match w.write d (Encoder.default.bind Sink.memory) with
  | (.error stop, w, _) => (.error stop, w)
  | (.ok (), w, b) =>
    match b.flush with
    | (.ok (), b) => (.ok b.sink.accepted, w)
    | (.error e, _) => (.error (.error (.io e)), w)

end Writer
end RecordTape
