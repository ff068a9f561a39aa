import RecordTape.Proofs.Sink.Delivery
import RecordTape.Proofs.Writer.Pieces
/-!
# Direct encodings

What a writer does to a datum depends on its schema and the datum alone. `Writer.Ready` is the
invariant that makes it so: between two data the scratch holds the header and nothing else.
`write_ready` says what one write of a ready writer comes to, in terms of the direct encoding, which
is the bytes that a newly made writer gives for the datum by itself.
-/

namespace RecordTape

namespace Sink

/-- Bytes written to the end, and a flush once all are accepted. -/
def deliver (s : Sink) (data : Bytes) : Except IoError Unit × Sink :=
  match ByteSink.writeAll s data with
  | (.ok (), s) => s.flush
  | (.error e, s) => (.error e, s)

theorem deliver_memory (data : Bytes) :
    (memory.deliver data).1 = .ok () ∧ (memory.deliver data).2.accepted = data := by
  obtain ⟨ha, ht, hok⟩ := memory.writeAll_spec data
  have h : (ByteSink.writeAll memory data).1 = .ok () := hok.2 rfl
  unfold deliver
  generalize ByteSink.writeAll memory data = p at *
  obtain ⟨r, s⟩ := p
  cases h
  have hf : s.flushFailure = none := ht.flushFailure
  have ha : s.accepted = data := by
    simpa [share, memory] using ha
  exact ⟨by simp [flush, hf], by simp [flush, hf, ha]⟩

end Sink

namespace Binding

/-- Bytes put into an empty buffer and flushed reach the sink by one delivery, whether the buffer
drains early or not. -/
theorem append_flush {b : Binding} (hb : b.encoder.buffer = []) (data : Bytes) :
    match (b.append data).drainIfFull with
    | (.ok (), b') => (b'.flush.1, b'.flush.2.sink) = b.sink.deliver data
    | (.error e, b') => (.error e, b'.sink) = b.sink.deliver data := by
  have ha : (b.append data).encoder.buffer = data := by simp [append, hb]
  have hs : (b.append data).sink = b.sink := rfl
  unfold drainIfFull Sink.deliver
  by_cases hfull : (b.append data).encoder.size ≤ (b.append data).buffered
  · rw [if_pos hfull, drain, ha, hs]
    rcases ByteSink.writeAll b.sink data with ⟨_ | _, s⟩
    · rfl
    · simp [flush, drain]
  · simp only [if_neg hfull, flush, drain, ha, hs]
    rcases ByteSink.writeAll b.sink data with ⟨_ | _, s⟩ <;> rfl

end Binding

namespace Writer

variable {α : Type} [Datum α]

/-- The bytes of a datum under a schema, header aside. -/
def direct (schema : Schema) (d : α) : Outcome EncodingFailure Bytes := do
  let v ← resolve schema d
  match encodeValue schema v with
  | (bytes, none) => return bytes
  | (_, some stop) => .error stop

/-- The bytes that a new writer for a schema gives for a datum by itself. -/
def encodeAlone (schema : Schema) (d : α) : Outcome TapeError Bytes := do
  let w ← (create schema).mapError TapeError.schemaBinding
  (w.encode d).1

/-- The writer stands between two data: its scratch is what it was made with. -/
structure Ready (schema : Schema) (w : Writer) : Prop where
  schema_eq : w.schema = schema
  scratch_eq : freshScratch schema = .ok w.scratch

theorem ready_of_create {schema : Schema} {w : Writer} (h : create schema = .ok w) :
    Ready schema w := by
  unfold create at h
  cases hf : freshScratch schema with
  | error e => rw [hf] at h; cases h
  | ok scratch => rw [hf] at h; cases h; exact ⟨rfl, hf⟩

theorem create_of_forSchema {schema : Schema} {w : Writer} (h : forSchema schema = .ok w) :
    create schema = .ok w := by
  unfold forSchema at h
  split at h
  · cases h
  · exact h

/-- The schema of a ready writer has a canonical form and names. -/
theorem bound_of_ready {schema : Schema} {w : Writer} (hw : Ready schema w) :
    ∃ text names, schema.canonical = .ok text ∧ schema.names = .ok names := by
  have hscratch := hw.scratch_eq
  unfold freshScratch at hscratch
  cases hcanonical : schema.canonical with
  | error f => rw [hcanonical] at hscratch; cases hscratch
  | ok text =>
    rw [hcanonical] at hscratch
    cases hnames : schema.names with
    | error e => rw [hnames] at hscratch; cases hscratch
    | ok names => exact ⟨text, names, rfl, rfl⟩

/-- A scratch made anew is a header. -/
theorem length_freshScratch {schema : Schema} {scratch : Bytes}
    (h : freshScratch schema = .ok scratch) : scratch.length = Fingerprint.headerLength := by
  unfold freshScratch at h
  cases hc : schema.canonical with
  | error f => rw [hc] at h; cases h
  | ok text =>
    rw [hc] at h
    simp only [bind, Except.bind, pure, Except.pure] at h
    cases hn : schema.names with
    | error e => rw [hn] at h; cases h
    | ok names => rw [hn] at h; cases h; exact Fingerprint.length_header text

/-- One write of a ready writer. An encoding failure leaves the binding as it was; otherwise the
direct encoding goes behind the buffer, which is drained if it is full. -/
theorem write_ready {schema : Schema} {w : Writer} (hw : Ready schema w) (d : α) (b : Binding) :
    w.write d b =
      match direct schema d with
      | .error stop => (.error (stop.map .encoding), { w with calls := w.calls + 1 }, b)
      | .ok bytes =>
        (match (b.append bytes).drainIfFull.1 with
          | .ok () => .ok ()
          | .error e => .error (.error (.io e)),
        { w with calls := w.calls + 1 }, (b.append bytes).drainIfFull.2) := by
  obtain ⟨rfl, hscratch⟩ := hw
  have hlen := length_freshScratch hscratch
  unfold write direct
  simp only [bind, Except.bind]
  cases resolve w.schema d with
  | error stop => rfl
  | ok v =>
    simp only [encodeBehind, hlen, if_true]
    rcases encodeValue w.schema v with ⟨bytes, _ | stop⟩
    · simp only [HeaderFilter.write_header hlen, pure, Except.pure]
      rcases (b.append bytes).drainIfFull with ⟨_ | _, b'⟩ <;> rfl
    · simp only [hscratch]

theorem Ready.calls {schema : Schema} {w : Writer} (hw : Ready schema w) (n : Nat) :
    Ready schema { w with calls := n } := ⟨hw.schema_eq, hw.scratch_eq⟩

/-- A ready writer is ready again after any write. -/
theorem Ready.write {schema : Schema} {w : Writer} (hw : Ready schema w) (d : α) (b : Binding) :
    Ready schema (w.write d b).2.1 := by
  rw [write_ready hw]
  cases direct schema d <;> exact hw.calls _

/-- A ready writer encodes a datum by itself to its direct encoding. -/
theorem encode_ready {schema : Schema} {w : Writer} (hw : Ready schema w) (d : α) :
    (w.encode d).1 = (direct schema d).mapError .encoding := by
  rw [encode, write_ready hw]
  cases hd : direct schema d with
  | error stop => rfl
  | ok bytes =>
    have hb := Binding.append_flush (b := Encoder.default.bind Sink.memory) rfl bytes
    obtain ⟨hok, hacc⟩ := Sink.deliver_memory bytes
    have hsink : (Encoder.default.bind Sink.memory).sink = Sink.memory := rfl
    simp only
    generalize ((Encoder.default.bind Sink.memory).append bytes).drainIfFull = p at hb ⊢
    rcases p with ⟨_ | _, b⟩
    · simp only [hsink] at hb
      rw [← hb] at hok
      cases hok
    · simp only [hsink] at hb ⊢
      rw [← hb] at hok hacc
      rcases hf : b.flush with ⟨_ | _, b'⟩ <;> rw [hf] at hok hacc
      · cases hok
      · exact congrArg Except.ok hacc

/-- Data that are resolved alike are encoded alike, and leave the writer in the same state. -/
theorem encode_of_resolve {β : Type} [Datum β] {schema : Schema} {w : Writer} {d : α} {e : β}
    (hw : Ready schema w) (h : resolve schema d = resolve schema e) : w.encode d = w.encode e := by
  have hdirect : direct schema d = direct schema e := by rw [direct, direct, h]
  rw [encode, encode, write_ready hw, write_ready hw, hdirect]

theorem encodeAlone_of_resolve {β : Type} [Datum β] {schema : Schema} {d : α} {e : β}
    (h : resolve schema d = resolve schema e) : encodeAlone schema d = encodeAlone schema e := by
  unfold encodeAlone
  cases hcreate : create schema with
  | error stop => rfl
  | ok w => exact congrArg Prod.fst (encode_of_resolve (ready_of_create hcreate) h)

/-- Where a writer is ready, the bytes a new writer gives are the direct encoding. -/
theorem encodeAlone_of_ready {schema : Schema} {w : Writer} (hw : Ready schema w) (d : α) :
    encodeAlone schema d = (direct schema d).mapError .encoding := by
  have h : create schema = .ok ⟨schema, w.scratch, 0⟩ := by rw [create, hw.scratch_eq]; rfl
  rw [encodeAlone, h]
  exact encode_ready (ready_of_create h) d

end Writer
end RecordTape
