import RecordTape.Proofs.Serializer.AnyOrder
import RecordTape.Proofs.Serializer.Course
/-!
# Serializers in lockstep

Two serializers of one topic and tuning that are given the same records, with maps that come up in
other orders for the one than for the other, keep the same key and count the same
(`Lockstep`). A sink that takes everything is given the same blob by both but for these orders, or
both refuse the record, unless a fault ends one of the calls (`serialize_lockstep`).
-/

namespace RecordTape.Serializer

open Outcome (InStep)
open Writer (SameButOrder)

variable {t : Topic} {c : SerializerConfig}

/-! ## Calls that go to memory -/

section Memory

variable {κ ν : Type} [Datum κ] [Datum ν] {s : Serializer κ}

/-- What a call comes to if its sink takes everything. -/
theorem serialize_memory_eq (h : Inv t c s) (r : Record κ ν) :
    let key := s.keyBytes t r.key
    let value := Writer.encodeAlone t.valueSchema r.value
    let call := s.serialize r Sink.memory
    call.result = (do let _ ← key; let _ ← value; return ()) ∧
      ∀ k v, key = .ok k → value = .ok v → call.sink.accepted = emptyHeader ++ k ++ v := by
  intro key value call
  have hanswer := Prod.mk.inj (serialize_spec h r Sink.memory).1
  have hending : Ending Sink.memory call.sink key value call.result := by
    rw [hanswer.1, hanswer.2]
    exact answer_ending (isEncoding_keyBytes h r.key)
      (isEncoding_encodeAlone h.valueWriter r.value) Sink.memory
  have hall (n : Nat) : ¬ Sink.memory.share n < n := Nat.lt_irrefl n
  generalize call.result = result at hending
  generalize call.sink = sink at hending
  generalize key = key at hending
  generalize value = value at hending
  cases hending with
  | headerRefused hlt => exact absurd hlt (hall _)
  | keyUnencodable _ hkey | keyFault _ hkey =>
    rw [hkey]
    exact ⟨rfl, nofun⟩
  | keyRefused _ _ hlt => exact absurd hlt (hall _)
  | valueUnencodable hkey _ hvalue | valueFault hkey _ hvalue =>
    rw [hkey, hvalue]
    exact ⟨rfl, nofun⟩
  | valueRefused _ _ _ hlt => exact absurd hlt (hall _)
  | flushFailed _ _ _ hfailure => cases hfailure
  | done hkey hvalue _ _ hgained =>
    rw [hkey, hvalue]
    refine ⟨rfl, ?_⟩
    rintro k v ⟨⟩ ⟨⟩
    exact hgained.accepted

/-- Where the header is taken, what is told of a call is how its key was had, and writing a record
to the end leaves the rest of the state as having the key left it. -/
theorem writeRecord_of_header {sink sink' : Sink}
    (h : ByteSink.writeAll sink emptyHeader = (.ok (), sink')) (s : Serializer κ) (r : Record κ ν) :
    (s.writeRecord r sink).event = (s.obtainKey r.key).1.toOption.map Prod.snd ∧
      ((s.writeRecord r sink).result = .ok () → ∃ w e, (s.writeRecord r sink).serializer =
        { (s.obtainKey r.key).2 with valueWriter := w, encoder := e }) := by
  unfold writeRecord
  simp only [h]
  generalize s.obtainKey r.key = p
  obtain ⟨stop | ⟨bytes, event⟩, s'⟩ := p
  · exact ⟨rfl, nofun⟩
  · simp only
    rcases ByteSink.writeAll sink' bytes with ⟨e | _, sink⟩
    · exact ⟨rfl, nofun⟩
    · exact ⟨rfl, fun _ => s'.exists_writeValue r.value sink⟩

/-- A call that succeeds counts its bytes and its record besides. -/
theorem serialize_memory_state (s : Serializer κ) (r : Record κ ν) :
    let had := s.obtainKey r.key
    let call := s.serialize r Sink.memory
    call.event = had.1.toOption.map Prod.snd ∧
      (call.result = .ok () → ∃ w e, call.serializer = { had.2 with
        valueWriter := w
        encoder := e
        stats := { had.2.stats with
          bytesWritten := had.2.stats.bytesWritten + call.sink.accepted.length
          records := had.2.stats.records + 1 } }) := by
  have hheader : (ByteSink.writeAll Sink.memory emptyHeader).1 = .ok () :=
    (Sink.memory.writeAll_spec emptyHeader).2.2.mpr rfl
  obtain ⟨hevent, hstate⟩ := writeRecord_of_header (Prod.ext hheader rfl) s r
  rw [serialize_eq]
  refine ⟨hevent, fun hok => ?_⟩
  obtain ⟨w, e, hserializer⟩ := hstate hok
  replace hok : (s.writeRecord r Sink.memory).result = .ok () := hok
  refine ⟨w, e, ?_⟩
  simp only [hserializer, hok]
  rfl

/-- A call whose sink takes everything: what it comes to after what was had for its key, with the
bytes of its value. -/
structure InMemory (t : Topic) (c : SerializerConfig)
    (had : Outcome TapeError (Bytes × KeyEvent) × Serializer κ) (value : Outcome TapeError Bytes)
    (call : Call κ) : Prop where
  inv : Inv t c call.serializer
  keyError : IsEncoding (had.1.map Prod.fst)
  valueError : IsEncoding value
  event : call.event = had.1.toOption.map Prod.snd
  result : call.result = (do let _ ← had.1.map Prod.fst; let _ ← value; return ())
  accepted : ∀ k v, had.1.map Prod.fst = .ok k → value = .ok v →
    call.sink.accepted = emptyHeader ++ k ++ v
  after : call.result = .ok () → ∃ w e, call.serializer = { had.2 with
    valueWriter := w
    encoder := e
    stats := { had.2.stats with
      bytesWritten := had.2.stats.bytesWritten + call.sink.accepted.length
      records := had.2.stats.records + 1 } }

theorem serialize_inMemory (h : Inv t c s) (r : Record κ ν) :
    InMemory t c (s.obtainKey r.key) (Writer.encodeAlone t.valueSchema r.value)
      (s.serialize r Sink.memory) := by
  have hkey := (obtainKey_spec h r.key).1
  obtain ⟨hresult, haccepted⟩ := serialize_memory_eq h r
  obtain ⟨hevent, hafter⟩ := s.serialize_memory_state r
  rw [← hkey] at hresult haccepted
  exact {
    inv := (serialize_spec h r Sink.memory).2
    keyError := hkey ▸ isEncoding_keyBytes h r.key
    valueError := isEncoding_encodeAlone h.valueWriter r.value
    event := hevent
    result := hresult
    accepted := haccepted
    after := hafter }

end Memory

/-! ## Two serializers -/

variable {κ ν : Type} [Datum κ] [Datum ν] {s₁ s₂ : Serializer (Arranged κ)}

/-- Two serializers that keep the same key and have counted the same. The kept bytes may differ in
the order of maps. -/
structure Lockstep (t : Topic) (c : SerializerConfig) (s₁ s₂ : Serializer (Arranged κ)) : Prop where
  left : Inv t c s₁
  right : Inv t c s₂
  topic : s₁.topic = s₂.topic
  stats : s₁.stats = s₂.stats
  cache : s₁.cache.map (·.key.datum) = s₂.cache.map (·.key.datum)

theorem Lockstep.create {s : Serializer (Arranged κ)}
    (h : Serializer.create (Arranged κ) t c = .ok s) : Lockstep t c s s :=
  ⟨create_inv h, create_inv h, rfl, rfl, rfl⟩

/-- Whether the kept key stands for another one is a matter of the data. -/
theorem holdsKey_arranged (s : Serializer (Arranged κ)) (key : Arranged κ) :
    s.holdsKey key = (s.config.memoizeKeys &&
      (s.cache.map (·.key.datum)).any fun kept => Datum.same kept key.datum) := by
  rw [holdsKey, Option.any_map]
  rfl

/-- The bytes that are kept are the same but for the order of maps. -/
theorem Lockstep.kept (h : Lockstep t c s₁ s₂) {a b : CachedKey (Arranged κ)}
    (ha : s₁.cache = some a) (hb : s₂.cache = some b) :
    SameButOrder t.keySchema a.bytes b.bytes := by
  have hdatum : b.key.datum = a.key.datum := by simpa [ha, hb] using h.cache.symm
  have hdirect : InStep (SameButOrder t.keySchema) (Writer.direct t.keySchema a.key)
      (Writer.direct t.keySchema b.key) := Writer.direct_inStep hdatum
  rw [h.left.cache a ha, h.right.cache b hb] at hdirect
  cases hdirect with
  | ok hab => exact hab

theorem newKeyBytes_inStep (c : SerializerConfig) {w : Writer} (hw : Writer.Ready t.keySchema w)
    {k₁ k₂ : Arranged κ} (hkey : k₂.datum = k₁.datum) :
    InStep (SameButOrder t.keySchema) (newKeyBytes t c k₁) (newKeyBytes t c k₂) := by
  unfold newKeyBytes
  cases Capacity.reserve c.initialKeyCapacity with
  | error f => exact .error _ _
  | ok _ =>
    simp only
    rw [Writer.encodeAlone_of_ready hw, Writer.encodeAlone_of_ready hw]
    exact (Writer.direct_inStep hkey).mapError _

/-- Bytes for the same key are had in the same way by both. -/
theorem obtainKey_lockstep (h : Lockstep t c s₁ s₂) {k₁ k₂ : Arranged κ}
    (hkey : k₂.datum = k₁.datum) :
    InStep (fun p q => SameButOrder t.keySchema p.1 q.1 ∧ p.2 = q.2 ∧
        Lockstep t c (s₁.obtainKey k₁).2 (s₂.obtainKey k₂).2)
      (s₁.obtainKey k₁).1 (s₂.obtainKey k₂).1 := by
  have hinv₁ := (obtainKey_spec h.left k₁).2
  have hinv₂ := (obtainKey_spec h.right k₂).2
  have hfound₁ := s₁.found_eq k₁
  have hfound₂ := s₂.found_eq k₂
  have hholds : s₁.holdsKey k₁ = s₂.holdsKey k₂ := by
    rw [holdsKey_arranged, holdsKey_arranged, h.left.config, h.right.config, h.cache, hkey]
  unfold obtainKey at *
  cases hheld : s₁.holdsKey k₁ with
  | true =>
    rw [hheld] at hholds
    obtain ⟨a, ha, -⟩ := cache_of_holdsKey hheld
    obtain ⟨b, hb, -⟩ := cache_of_holdsKey hholds.symm
    rw [if_pos hheld, ha] at hfound₁
    rw [if_pos hholds.symm, hb] at hfound₂
    simp only [hfound₁, hfound₂] at hinv₁ hinv₂ ⊢
    refine .ok ⟨h.kept ha hb, rfl, hinv₁, hinv₂, h.topic, ?_, h.cache⟩
    simp only [Option.map_some, h.stats]
  | false =>
    rw [hheld] at hholds
    rw [hheld, if_neg Bool.false_ne_true] at hfound₁
    rw [← hholds, if_neg Bool.false_ne_true] at hfound₂
    have hnew := newKeyBytes_inStep c h.left.keyWriter hkey
    rw [← (encodeKey_ledger h.left k₁).1, ← (encodeKey_ledger h.right k₂).1] at hnew
    obtain ⟨w₁, e₁, hs₁⟩ := s₁.exists_encodeKey k₁
    obtain ⟨w₂, e₂, hs₂⟩ := s₂.exists_encodeKey k₂
    simp only [hfound₁, hfound₂] at hinv₁ hinv₂ ⊢
    generalize s₁.encodeKey k₁ = p at hnew hs₁ hinv₁
    generalize s₂.encodeKey k₂ = q at hnew hs₂ hinv₂
    obtain ⟨_, s₁'⟩ := p
    obtain ⟨_, s₂'⟩ := q
    cases hs₁
    cases hs₂
    cases hnew with
    | @ok x y hxy =>
      refine .ok ⟨hxy, congrArg KeyEvent.miss hxy.length, hinv₁, hinv₂, h.topic, ?_, ?_⟩
      · simp only [h.stats]
      · simp only [Option.map_some, hkey]
    | error stop stop' => exact .error _ _
    | left _ hstop => exact .left _ hstop
    | right _ hstop => exact .right _ hstop

/-! ## A call of each -/

/-- Blobs of one record: the header, and a key and a value with maps that may be in other orders. -/
inductive SameBlob (t : Topic) : Bytes → Bytes → Prop
  | intro {k k' v v' : Bytes} : SameButOrder t.keySchema k k' → SameButOrder t.valueSchema v v' →
    SameBlob t (emptyHeader ++ k ++ v) (emptyHeader ++ k' ++ v')

theorem SameBlob.length_eq {x y : Bytes} (h : SameBlob t x y) : x.length = y.length := by
  obtain ⟨hkey, hvalue⟩ := h
  simp only [List.length_append, hkey.length, hvalue.length]

/-- Two calls that write the same blob but for the order of maps and leave serializers in lockstep,
or both refuse their record, unless one of them is a fault. -/
inductive CallsInStep (t : Topic) (c : SerializerConfig) (a b : Call (Arranged κ)) : Prop
  | written : a.result = .ok () → b.result = .ok () → SameBlob t a.sink.accepted b.sink.accepted →
    a.event = b.event → Lockstep t c a.serializer b.serializer → CallsInStep t c a b
  | refused (e e' : EncodingFailure) : a.result = .error (.error (.encoding e)) →
    b.result = .error (.error (.encoding e')) → a.event = b.event → CallsInStep t c a b
  | fault_left (f : Fault) : a.result = .error (.fault f) → CallsInStep t c a b
  | fault_right (f : Fault) : b.result = .error (.fault f) → CallsInStep t c a b

/-- Calls that both stop in encoding. -/
theorem CallsInStep.of_stops {a b : Call (Arranged κ)} {x y : Outcome TapeError Bytes}
    {stop stop' : Stop TapeError} (hx : IsEncoding x) (hy : IsEncoding y) (hstop : x = .error stop)
    (hstop' : y = .error stop') (ha : a.result = .error stop) (hb : b.result = .error stop')
    (hevent : a.event = b.event) : CallsInStep t c a b := by
  rcases stop with e | f
  · rcases stop' with e' | f
    · obtain ⟨e, rfl⟩ := hx e hstop
      obtain ⟨e', rfl⟩ := hy e' hstop'
      exact .refused e e' ha hb hevent
    · exact .fault_right f hb
  · exact .fault_left f ha

theorem CallsInStep.of_isFault {a b : Call (Arranged κ)} {stop : Stop TapeError}
    (h : stop.isFault) (hresult : a.result = .error stop ∨ b.result = .error stop) :
    CallsInStep t c a b := by
  cases stop with
  | error e => cases h
  | fault f =>
    rcases hresult with ha | hb
    · exact .fault_left f ha
    · exact .fault_right f hb

/-- Calls with keys and values in step are in step. -/
theorem CallsInStep.of_inMemory {had had' : Outcome TapeError (Bytes × KeyEvent) ×
      Serializer (Arranged κ)} {value value' : Outcome TapeError Bytes} {a b : Call (Arranged κ)}
    (ha : InMemory t c had value a) (hb : InMemory t c had' value' b)
    (hkeys : InStep (fun p q => SameButOrder t.keySchema p.1 q.1 ∧ p.2 = q.2 ∧
      Lockstep t c had.2 had'.2) had.1 had'.1)
    (hvalues : InStep (SameButOrder t.valueSchema) value value') : CallsInStep t c a b := by
  obtain ⟨p, s⟩ := had
  obtain ⟨q, s'⟩ := had'
  cases hkeys with
  | error _ _ =>
    exact .of_stops ha.keyError hb.keyError rfl rfl ha.result hb.result
      (ha.event.trans hb.event.symm)
  | left _ hstop => exact .of_isFault hstop (.inl ha.result)
  | right _ hstop => exact .of_isFault hstop (.inr hb.result)
  | ok hpq =>
    obtain ⟨hkey, hsame, hlock⟩ := hpq
    have hevent : a.event = b.event := by rw [ha.event, hb.event]; exact congrArg some hsame
    cases hvalues with
    | error _ _ =>
      exact .of_stops ha.valueError hb.valueError rfl rfl ha.result hb.result hevent
    | left _ hstop => exact .of_isFault hstop (.inl ha.result)
    | right _ hstop => exact .of_isFault hstop (.inr hb.result)
    | ok hvalue =>
      obtain ⟨w, e, hafter⟩ := ha.after ha.result
      obtain ⟨w', e', hafter'⟩ := hb.after hb.result
      have hblob : SameBlob t a.sink.accepted b.sink.accepted := by
        rw [ha.accepted _ _ rfl rfl, hb.accepted _ _ rfl rfl]
        exact .intro hkey hvalue
      refine .written ha.result hb.result hblob hevent ⟨ha.inv, hb.inv, ?_, ?_, ?_⟩ <;>
        rw [hafter, hafter']
      · exact hlock.topic
      · have hstats : s.stats = s'.stats := hlock.stats
        simp only [hstats, hblob.length_eq]
      · exact hlock.cache

/-- Serializers in lockstep that are given the same record take the same step. -/
theorem serialize_lockstep (h : Lockstep t c s₁ s₂) {r₁ r₂ : Record (Arranged κ) (Arranged ν)}
    (hkey : r₂.key.datum = r₁.key.datum) (hvalue : r₂.value.datum = r₁.value.datum) :
    CallsInStep t c (s₁.serialize r₁ Sink.memory) (s₂.serialize r₂ Sink.memory) := by
  have hvalues : InStep (SameButOrder t.valueSchema)
      (Writer.encodeAlone t.valueSchema r₁.value) (Writer.encodeAlone t.valueSchema r₂.value) := by
    rw [Writer.encodeAlone_of_ready h.left.valueWriter,
      Writer.encodeAlone_of_ready h.left.valueWriter]
    exact (Writer.direct_inStep hvalue).mapError _
  exact .of_inMemory (serialize_inMemory h.left r₁) (serialize_inMemory h.right r₂)
    (obtainKey_lockstep h hkey) hvalues

end RecordTape.Serializer
