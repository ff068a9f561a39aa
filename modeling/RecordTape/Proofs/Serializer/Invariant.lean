import RecordTape.Proofs.Serializer.Counting
import RecordTape.Proofs.Writer.Direct
/-!
# States of a serializer

`Reachable` is a serializer of a topic after any calls, whatever came of them. Every such state has
`Inv`: its writers stand between two data, and the cache holds a key with its direct encoding.
`serialize_answer` then says what a call comes to without the state: it is `answer`, a function of
the bytes of the key, the bytes of the value and the sink.
-/

namespace RecordTape

namespace SerializerConfig

/-- Room for the bytes of a key can be set aside. -/
def Roomy (c : SerializerConfig) : Prop := c.initialKeyCapacity < Capacity.limit

instance (c : SerializerConfig) : Decidable c.Roomy := inferInstanceAs (Decidable (_ < _))

end SerializerConfig

namespace Serializer

variable {κ ν : Type} [Datum κ] [Datum ν]

/-- The states of the serializers of a topic and tuning: as made, and after each call with a value
of type `ν`. -/
inductive Reachable (ν : Type) [Datum ν] (t : Topic) (c : SerializerConfig) : Serializer κ → Prop
  | create {s : Serializer κ} : Serializer.create κ t c = .ok s → Reachable ν t c s
  | serialize {s : Serializer κ} (r : Record κ ν) (sink : Sink) :
    Reachable ν t c s → Reachable ν t c (s.serialize r sink).serializer

/-- What holds between two calls. -/
structure Inv (t : Topic) (c : SerializerConfig) (s : Serializer κ) : Prop where
  config : s.config = c
  keyWriter : Writer.Ready t.keySchema s.keyWriter
  valueWriter : Writer.Ready t.valueSchema s.valueWriter
  cache : ∀ k, s.cache = some k → Writer.direct t.keySchema k.key = .ok k.bytes

omit [Datum κ] in
/-- A serializer that was made has the writers of the two schemas, the encoder of its tuning and no
cached key. -/
theorem create_eq_ok {t : Topic} {c : SerializerConfig} {s : Serializer κ}
    (h : Serializer.create κ t c = .ok s) :
    ∃ k v e, Writer.forSchema t.keySchema = .ok k ∧ Writer.forSchema t.valueSchema = .ok v ∧
      s = ⟨t.name, c, k, v, e, none, Stats.zero⟩ := by
  unfold Serializer.create at h
  simp only [bind, Except.bind] at h
  cases hc : c.validate with
  | error e => rw [hc] at h; cases h
  | ok _ =>
    rw [hc] at h
    cases hk : Writer.forSchema t.keySchema with
    | error e => rw [hk] at h; cases h
    | ok k =>
      rw [hk] at h
      cases hv : Writer.forSchema t.valueSchema with
      | error e => rw [hv] at h; cases h
      | ok v =>
        rw [hv] at h
        cases he : Encoder.create c.encoderBufferSize with
        | error e => rw [he] at h; cases h
        | ok e =>
          rw [he] at h
          cases h
          exact ⟨k, v, e, rfl, rfl, rfl⟩

omit [Datum κ] in
/-- A serializer is made if its tuning is valid, both schemas bind and there is room for the buffer.
-/
theorem exists_create {t : Topic} {c : SerializerConfig} {k v : Writer}
    (hvalid : c.validate = .ok ()) (hroom : c.encoderBufferSize < Capacity.limit)
    (hk : Writer.forSchema t.keySchema = .ok k) (hv : Writer.forSchema t.valueSchema = .ok v) :
    ∃ s, Serializer.create κ t c = .ok s := by
  have hencoder : Encoder.create c.encoderBufferSize =
      .ok (Encoder.ofSize c.encoderBufferSize) := by
    rw [Encoder.create, Capacity.reserve_of_lt hroom]
    rfl
  refine ⟨⟨t.name, c, k, v, Encoder.ofSize c.encoderBufferSize, none, Stats.zero⟩, ?_⟩
  rw [Serializer.create, hvalid, hk, hv, hencoder]
  rfl

theorem create_inv {t : Topic} {c : SerializerConfig} {s : Serializer κ}
    (h : Serializer.create κ t c = .ok s) : Inv t c s := by
  obtain ⟨k, v, e, hk, hv, rfl⟩ := create_eq_ok h
  exact ⟨rfl, Writer.ready_of_create (Writer.create_of_forSchema hk),
    Writer.ready_of_create (Writer.create_of_forSchema hv), by simp⟩

/-! ## The key -/

/-- The bytes a call has for its key: those kept for an equal key, or else the direct encoding, once
there is room for it. -/
def keyBytes (t : Topic) (s : Serializer κ) (key : κ) : Outcome TapeError Bytes :=
  match if s.config.memoizeKeys then s.cached? key else none with
  | some bytes => .ok bytes
  | none =>
    match Capacity.reserve s.config.initialKeyCapacity with
    | .error f => .error (.fault f)
    | .ok () => Writer.encodeAlone t.keySchema key

/-- Encoding a key uses its writer and the encoder, and nothing else of the state. -/
theorem exists_encodeKey (s : Serializer κ) (key : κ) :
    ∃ w e, (s.encodeKey key).2 = { s with keyWriter := w, encoder := e } := by
  unfold encodeKey
  split
  · exact ⟨s.keyWriter, s.encoder, rfl⟩
  · split
    · exact ⟨_, _, rfl⟩
    · split <;> exact ⟨_, _, rfl⟩

/-- Encoding a key gives its direct encoding and keeps the invariant. -/
theorem encodeKey_spec {t : Topic} {c : SerializerConfig} {s : Serializer κ} (h : Inv t c s)
    (key : κ) :
    (s.encodeKey key).1 =
      (match Capacity.reserve s.config.initialKeyCapacity with
        | .error f => .error (.fault f)
        | .ok () => Writer.encodeAlone t.keySchema key) ∧
      Inv t c (s.encodeKey key).2 := by
  unfold encodeKey
  rw [Writer.encodeAlone_of_ready h.keyWriter]
  cases Capacity.reserve s.config.initialKeyCapacity with
  | error f => exact ⟨rfl, h⟩
  | ok _ =>
    rw [Writer.write_ready h.keyWriter]
    cases hd : Writer.direct t.keySchema key with
    | error stop => exact ⟨rfl, ⟨h.config, h.keyWriter.calls _, h.valueWriter, h.cache⟩⟩
    | ok bytes =>
      -- the buffer drains into memory, which takes everything
      have hb := Binding.append_flush (b := s.encoder.bind Sink.memory) rfl bytes
      obtain ⟨hok, hacc⟩ := Sink.deliver_memory bytes
      have hsink : (s.encoder.bind Sink.memory).sink = Sink.memory := rfl
      rw [hsink] at hb
      simp only
      generalize ((s.encoder.bind Sink.memory).append bytes).drainIfFull = p at hb ⊢
      rcases p with ⟨_ | _, b⟩ <;> simp only at hb <;> rw [← hb] at hok hacc
      · cases hok
      · rcases hf : b.flush with ⟨_ | _, b'⟩ <;> rw [hf] at hok hacc
        · cases hok
        · simp only [hf]
          exact ⟨congrArg Except.ok hacc,
            ⟨h.config, h.keyWriter.calls _, h.valueWriter, h.cache⟩⟩

/-- Obtaining a key gives `keyBytes` and keeps the invariant; a new key is kept with its bytes. -/
theorem obtainKey_spec {t : Topic} {c : SerializerConfig} {s : Serializer κ} (h : Inv t c s)
    (key : κ) :
    (s.obtainKey key).1.map Prod.fst = s.keyBytes t key ∧ Inv t c (s.obtainKey key).2 := by
  unfold obtainKey keyBytes
  cases if s.config.memoizeKeys then s.cached? key else none with
  | some bytes => exact ⟨rfl, ⟨h.config, h.keyWriter, h.valueWriter, h.cache⟩⟩
  | none =>
    obtain ⟨hres, hinv⟩ := encodeKey_spec h key
    simp only
    rw [← hres]
    cases hk : s.encodeKey key with
    | mk result s' =>
      rw [hk] at hres hinv
      cases result with
      | error stop => exact ⟨rfl, hinv⟩
      | ok bytes =>
        refine ⟨rfl, ⟨hinv.config, hinv.keyWriter, hinv.valueWriter, ?_⟩⟩
        rintro k ⟨⟩
        simp only at hres
        cases hc : Capacity.reserve s.config.initialKeyCapacity with
        | error f => rw [hc] at hres; cases hres
        | ok _ =>
          rw [hc, Writer.encodeAlone_of_ready h.keyWriter] at hres
          cases hd : Writer.direct t.keySchema key with
          | error stop => rw [hd] at hres; cases hres
          | ok _ => rw [hd] at hres; cases hres; rfl

/-! ## The value -/

/-- The bytes of a value, and the sink's answer to them. -/
def answerValue (value : Outcome TapeError Bytes) (sink : Sink) : Outcome TapeError Unit × Sink :=
  match value with
  | .error stop => (.error stop, sink)
  | .ok bytes =>
    match sink.deliver bytes with
    | (.ok (), sink) => (.ok (), sink)
    | (.error e, sink) => (.error (.error (.io e)), sink)

omit [Datum κ] in
/-- Writing a value uses its writer and the encoder, and nothing else of the state. -/
theorem exists_writeValue {σ : Type} [ByteSink σ] (s : Serializer κ) (value : ν) (sink : σ) :
    ∃ w e, (s.writeValue value sink).2.1 = { s with valueWriter := w, encoder := e } := by
  unfold writeValue
  split
  · exact ⟨_, _, rfl⟩
  · split <;> exact ⟨_, _, rfl⟩

theorem writeValue_spec {t : Topic} {c : SerializerConfig} {s : Serializer κ} (h : Inv t c s)
    (value : ν) (sink : Sink) :
    ((s.writeValue value sink).1, (s.writeValue value sink).2.2) =
      answerValue (Writer.encodeAlone t.valueSchema value) sink ∧
      Inv t c (s.writeValue value sink).2.1 := by
  unfold writeValue
  rw [Writer.encodeAlone_of_ready h.valueWriter]
  rw [Writer.write_ready h.valueWriter]
  cases hd : Writer.direct t.valueSchema value with
  | error stop => exact ⟨rfl, ⟨h.config, h.keyWriter, h.valueWriter.calls _, h.cache⟩⟩
  | ok bytes =>
    have hb := Binding.append_flush (b := s.encoder.bind sink) rfl bytes
    have hsink : (s.encoder.bind sink).sink = sink := rfl
    have hinv (w : Nat) (e : Encoder) : Inv t c
        { s with valueWriter := { s.valueWriter with calls := w }, encoder := e } :=
      ⟨h.config, h.keyWriter, h.valueWriter.calls _, h.cache⟩
    rw [hsink] at hb
    simp only [answerValue, Outcome.mapError]
    generalize ((s.encoder.bind sink).append bytes).drainIfFull = p at hb ⊢
    rcases p with ⟨_ | _, b⟩ <;> simp only at hb <;> rw [← hb]
    · exact ⟨rfl, hinv _ _⟩
    · rcases hf : b.flush with ⟨_ | _, b'⟩ <;> simp only [hf] <;>
        exact ⟨trivial, hinv _ _⟩

/-! ## The whole call -/

/-- What a call answers and what it leaves in the sink, given the bytes of its key and value. -/
def answer (key value : Outcome TapeError Bytes) (sink : Sink) : Outcome TapeError Unit × Sink :=
  match ByteSink.writeAll sink emptyHeader with
  | (.error e, sink) => (.error (.error (.io e)), sink)
  | (.ok (), sink) =>
    match key with
    | .error stop => (.error stop, sink)
    | .ok bytes =>
      match ByteSink.writeAll sink bytes with
      | (.error e, sink) => (.error (.error (.io e)), sink)
      | (.ok (), sink) => answerValue value sink

theorem writeRecord_spec {t : Topic} {c : SerializerConfig} {s : Serializer κ} (h : Inv t c s)
    (r : Record κ ν) (sink : Sink) :
    ((s.writeRecord r sink).result, (s.writeRecord r sink).sink) =
      answer (s.keyBytes t r.key) (Writer.encodeAlone t.valueSchema r.value) sink ∧
      Inv t c (s.writeRecord r sink).serializer := by
  unfold writeRecord answer
  rcases ByteSink.writeAll sink emptyHeader with ⟨_ | _, sink⟩
  · exact ⟨rfl, h⟩
  · obtain ⟨hkey, hinv⟩ := obtainKey_spec h r.key
    simp only
    rw [← hkey]
    clear hkey
    generalize s.obtainKey r.key = p at hinv ⊢
    rcases p with ⟨_ | ⟨bytes, event⟩, s'⟩
    · exact ⟨rfl, hinv⟩
    · simp only [Except.map]
      rcases ByteSink.writeAll sink bytes with ⟨_ | _, sink⟩
      · exact ⟨rfl, hinv⟩
      · exact writeValue_spec hinv r.value sink

/-- A call in a state with the invariant answers by `answer`, and the invariant holds after it. -/
theorem serialize_spec {t : Topic} {c : SerializerConfig} {s : Serializer κ} (h : Inv t c s)
    (r : Record κ ν) (sink : Sink) :
    ((s.serialize r sink).result, (s.serialize r sink).sink) =
      answer (s.keyBytes t r.key) (Writer.encodeAlone t.valueSchema r.value) sink ∧
      Inv t c (s.serialize r sink).serializer := by
  obtain ⟨hanswer, hinv⟩ := writeRecord_spec h r sink
  rw [serialize_eq]
  exact ⟨hanswer, hinv.config, hinv.keyWriter, hinv.valueWriter, hinv.cache⟩

theorem Reachable.inv {t : Topic} {c : SerializerConfig} {s : Serializer κ}
    (h : Reachable ν t c s) : Inv t c s := by
  induction h with
  | create h => exact create_inv h
  | serialize r sink _ ih => exact (serialize_spec ih r sink).2

theorem Reachable.serialize_answer {t : Topic} {c : SerializerConfig} {s : Serializer κ}
    (h : Reachable ν t c s) (r : Record κ ν) (sink : Sink) :
    ((s.serialize r sink).result, (s.serialize r sink).sink) =
      answer (s.keyBytes t r.key) (Writer.encodeAlone t.valueSchema r.value) sink :=
  (serialize_spec h.inv r sink).1

end Serializer
end RecordTape
