import RecordTape.Proofs.Serializer.Ending
/-!
# The course of a call

What a call changes in a serializer besides its scratch: the kept key, the counters of keys and how
often each writer was asked to write (`Ledger`). `Course` lists how a call can go: the header is
refused, the bytes of the key cannot be had, or they are those of the kept key, or they are new.
Only in the last two cases is the value written, and only if the sink takes header and key in full.
-/

namespace RecordTape

namespace Sink

/-- The sink takes these bytes in full. -/
def takes (s : Sink) (data : Bytes) : Bool := s.share data.length = data.length

theorem takes_of_writeAll {s s' : Sink} {data : Bytes} {result : Except IoError Unit}
    (h : ByteSink.writeAll s data = (result, s')) : s.takes data = result.isOk := by
  have hok := (s.writeAll_spec data).2.2
  rw [h] at hok
  cases result with
  | error e => exact decide_eq_false fun hall => nomatch hok.2 hall
  | ok _ => exact decide_eq_true (hok.1 rfl)

/-- Bytes are taken behind others if they are taken together with them. -/
theorem takes_append {s s' : Sink} {a : Bytes} (h : ByteSink.writeAll s a = (.ok (), s'))
    (b : Bytes) :
    s.takes (a ++ b) = s'.takes b := by
  obtain ⟨-, hsum, -⟩ := share_append h b
  unfold takes
  rw [← hsum, List.length_append, decide_eq_decide]
  omega

end Sink

namespace Serializer

variable {κ ν : Type} [Datum κ] [Datum ν]

/-! ## The key of a call -/

/-- The kept key stands for this one: keys are memoized and it is equal. -/
def holdsKey (s : Serializer κ) (key : κ) : Bool :=
  s.config.memoizeKeys && s.cache.any fun kept => Datum.same kept.key key

/-- The bytes of a key that is encoded anew, once there is room for them. -/
def newKeyBytes (t : Topic) (c : SerializerConfig) (key : κ) : Outcome TapeError Bytes :=
  match Capacity.reserve c.initialKeyCapacity with
  | .error f => .error (.fault f)
  | .ok () => Writer.encodeAlone t.keySchema key

/-- Bytes are found for a key exactly if the kept key stands for it. -/
theorem found_eq (s : Serializer κ) (key : κ) :
    (if s.config.memoizeKeys then s.cached? key else none) =
      if s.holdsKey key then s.cache.map (·.bytes) else none := by
  unfold holdsKey cached?
  cases s.config.memoizeKeys with
  | false => simp
  | true => cases s.cache with
    | none => simp
    | some kept => by_cases hsame : Datum.same kept.key key <;> simp [hsame]

theorem cache_of_holdsKey {s : Serializer κ} {key : κ} (h : s.holdsKey key) :
    ∃ kept, s.cache = some kept ∧ Datum.same kept.key key := by
  rw [holdsKey, Bool.and_eq_true] at h
  cases hcache : s.cache with
  | none => simp [hcache] at h
  | some kept => exact ⟨kept, rfl, by simpa [hcache] using h.2⟩

theorem keyBytes_of_holdsKey {s : Serializer κ} {key : κ} {kept : CachedKey κ} (t : Topic)
    (h : s.holdsKey key) (hcache : s.cache = some kept) : s.keyBytes t key = .ok kept.bytes := by
  unfold keyBytes
  rw [found_eq, if_pos h, hcache]
  rfl

theorem keyBytes_of_not_holdsKey {s : Serializer κ} {key : κ} (t : Topic)
    (h : s.holdsKey key = false) : s.keyBytes t key = newKeyBytes t s.config key := by
  unfold keyBytes
  rw [found_eq, h]
  rfl

/-! ## What a call keeps count of -/

/-- The kept key, the uses of it, the keys encoded, and how often each writer was asked. -/
structure Ledger (κ : Type) where
  cache : Option (CachedKey κ)
  hits : Nat
  encodings : Nat
  keyCalls : Nat
  valueCalls : Nat

def ledger (s : Serializer κ) : Ledger κ :=
  ⟨s.cache, s.stats.keyCacheHits, s.stats.keyEncodings, s.keyWriter.calls, s.valueWriter.calls⟩

/-- How often the key writer is asked for a key that is not kept: not without room for it. -/
def keyAsks (c : SerializerConfig) : Nat := if c.Roomy then 1 else 0

/-- Encoding a key asks the key writer and changes nothing else that is kept count of. -/
theorem encodeKey_ledger {t : Topic} {c : SerializerConfig} {s : Serializer κ} (h : Inv t c s)
    (key : κ) :
    (s.encodeKey key).1 = newKeyBytes t c key ∧
      (s.encodeKey key).2.ledger =
        { s.ledger with keyCalls := s.keyWriter.calls + keyAsks c } := by
  refine ⟨?_, ?_⟩
  · rw [(encodeKey_spec h key).1, h.config]
    rfl
  · unfold encodeKey keyAsks
    rw [h.config]
    by_cases hroom : c.Roomy
    · rw [Capacity.reserve_of_lt hroom, if_pos hroom, Writer.write_ready h.keyWriter]
      cases Writer.direct t.keySchema key with
      | error stop => rfl
      | ok bytes =>
        simp only
        rcases ((s.encoder.bind Sink.memory).append bytes).drainIfFull with ⟨_ | _, b⟩
        · rfl
        · rcases hf : b.flush with ⟨_ | _, b'⟩ <;> simp only [hf] <;> rfl
    · rw [Capacity.reserve_of_le (Nat.not_lt.mp hroom), if_neg hroom]
      rfl

/-- How the bytes of a key are had: from the kept key, not at all, or anew. -/
inductive KeyCourse (t : Topic) (c : SerializerConfig) (s : Serializer κ) (key : κ) :
    Outcome TapeError (Bytes × KeyEvent) → Ledger κ → Prop
  | kept {kept : CachedKey κ} : s.holdsKey key → s.cache = some kept →
    KeyCourse t c s key (.ok (kept.bytes, .hit)) { s.ledger with hits := s.stats.keyCacheHits + 1 }
  | failed {stop : Stop TapeError} : s.holdsKey key = false → newKeyBytes t c key = .error stop →
    KeyCourse t c s key (.error stop) { s.ledger with keyCalls := s.keyWriter.calls + keyAsks c }
  | new {bytes : Bytes} : s.holdsKey key = false → newKeyBytes t c key = .ok bytes →
    KeyCourse t c s key (.ok (bytes, .miss bytes.length))
      { s.ledger with
        cache := some ⟨key, bytes⟩
        encodings := s.stats.keyEncodings + 1
        keyCalls := s.keyWriter.calls + 1 }

/-- A key that is not stopped by a fault was asked for: there was room. -/
theorem keyAsks_of_no_fault (t : Topic) {c : SerializerConfig} (key : κ)
    (h : ∀ f, newKeyBytes t c key ≠ .error (.fault f)) : keyAsks c = 1 := by
  by_cases hroom : c.Roomy
  · exact if_pos hroom
  · refine absurd ?_ (h (.noRoom c.initialKeyCapacity))
    rw [newKeyBytes, Capacity.reserve_of_le (Nat.not_lt.mp hroom)]

theorem obtainKey_course {t : Topic} {c : SerializerConfig} {s : Serializer κ} (h : Inv t c s)
    (key : κ) : KeyCourse t c s key (s.obtainKey key).1 (s.obtainKey key).2.ledger := by
  have hfound := s.found_eq key
  unfold obtainKey
  by_cases hheld : s.holdsKey key
  · obtain ⟨kept, hcache, -⟩ := cache_of_holdsKey hheld
    rw [if_pos hheld, hcache] at hfound
    rw [hfound]
    exact .kept hheld hcache
  · rw [if_neg hheld] at hfound
    rw [hfound]
    rw [Bool.not_eq_true] at hheld
    obtain ⟨hbytes, hledger⟩ := encodeKey_ledger h key
    generalize s.encodeKey key = p at hbytes hledger
    obtain ⟨_ | bytes, s'⟩ := p
    · rw [hledger]
      exact .failed hheld hbytes.symm
    · have hnew := KeyCourse.new hheld hbytes.symm
      rw [keyAsks_of_no_fault t key (by simp [← hbytes])] at hledger
      simp only [ledger, Ledger.mk.injEq] at hledger hnew ⊢
      obtain ⟨-, hhits, hencodings, hkeys, hvalues⟩ := hledger
      rw [hhits, hencodings, hkeys, hvalues]
      exact hnew

/-- Bytes that are had are those that the state has for the key. -/
theorem KeyCourse.keyBytes {t : Topic} {c : SerializerConfig} {s : Serializer κ} {key : κ}
    {bytes : Bytes} {event : KeyEvent} {ledger : Ledger κ}
    (h : KeyCourse t c s key (.ok (bytes, event)) ledger) (hinv : Inv t c s) :
    s.keyBytes t key = .ok bytes := by
  cases h with
  | kept hheld hcache => exact keyBytes_of_holdsKey t hheld hcache
  | new hheld hbytes => rw [keyBytes_of_not_holdsKey t hheld, hinv.config, hbytes]

/-! ## The course of a call -/

/-- Writing a value asks the value writer and changes nothing else that is kept count of. -/
theorem writeValue_ledger {t : Topic} {c : SerializerConfig} {s : Serializer κ} (h : Inv t c s)
    (value : ν) (sink : Sink) :
    (s.writeValue value sink).2.1.ledger =
      { s.ledger with valueCalls := s.valueWriter.calls + 1 } := by
  unfold writeValue
  rw [Writer.write_ready h.valueWriter]
  cases Writer.direct t.valueSchema value with
  | error stop => rfl
  | ok bytes =>
    simp only
    rcases ((s.encoder.bind sink).append bytes).drainIfFull with ⟨_ | _, b⟩
    · rfl
    · rcases hf : b.flush with ⟨_ | _, b'⟩ <;> simp only [hf] <;> rfl

/-- How often the value writer is asked when the bytes of a key are there. -/
def valueAsks (sink : Sink) (bytes : Bytes) : Nat :=
  if sink.takes (emptyHeader ++ bytes) then 1 else 0

/-- Once the header is written, the value writer is asked if the sink takes the bytes of the key. -/
theorem valueAsks_of_writeAll {sink sink₁ sink₂ : Sink} {bytes : Bytes}
    {result : Except IoError Unit}
    (hheader : ByteSink.writeAll sink emptyHeader = (.ok (), sink₁))
    (hkey : ByteSink.writeAll sink₁ bytes = (result, sink₂)) :
    valueAsks sink bytes = if result.isOk then 1 else 0 := by
  rw [valueAsks, Sink.takes_append hheader, Sink.takes_of_writeAll hkey]

/-- How a call can go, with the ledger it leaves. -/
inductive Course (t : Topic) (c : SerializerConfig) (s : Serializer κ) (key : κ) (sink : Sink) :
    Outcome TapeError Unit → Ledger κ → Prop
  | headerRefused {e : IoError} : sink.takes emptyHeader = false →
    Course t c s key sink (.error (.error (.io e))) s.ledger
  | keyFailed {stop : Stop TapeError} {ledger : Ledger κ} : sink.takes emptyHeader →
    KeyCourse t c s key (.error stop) ledger → Course t c s key sink (.error stop) ledger
  | keyHad {bytes : Bytes} {event : KeyEvent} {ledger : Ledger κ}
      {result : Outcome TapeError Unit} :
    sink.takes emptyHeader → KeyCourse t c s key (.ok (bytes, event)) ledger →
    Course t c s key sink result
      { ledger with valueCalls := ledger.valueCalls + valueAsks sink bytes }

theorem writeRecord_course {t : Topic} {c : SerializerConfig} {s : Serializer κ} (h : Inv t c s)
    (r : Record κ ν) (sink : Sink) :
    Course t c s r.key sink (s.writeRecord r sink).result
      (s.writeRecord r sink).serializer.ledger := by
  unfold writeRecord
  rcases hheader : ByteSink.writeAll sink emptyHeader with ⟨e | _, sink'⟩
  · exact .headerRefused (Sink.takes_of_writeAll hheader)
  · have htakes : sink.takes emptyHeader := Sink.takes_of_writeAll hheader
    have hcourse := obtainKey_course h r.key
    have hinv := (obtainKey_spec h r.key).2
    simp only
    generalize s.obtainKey r.key = p at hcourse hinv
    obtain ⟨stop | ⟨bytes, event⟩, s'⟩ := p
    · exact .keyFailed htakes hcourse
    · have hhad (result : Outcome TapeError Unit) :
          Course t c s r.key sink result { s'.ledger with
            valueCalls := s'.ledger.valueCalls + valueAsks sink bytes } :=
        .keyHad htakes hcourse
      simp only
      rcases hkey : ByteSink.writeAll sink' bytes with ⟨e | _, sink₂⟩ <;>
        rw [valueAsks_of_writeAll hheader hkey] at hhad
      · exact hhad _
      · simp only
        rw [writeValue_ledger hinv r.value sink₂]
        exact hhad _

/-- Every call takes one of the courses. -/
theorem serialize_course {t : Topic} {c : SerializerConfig} {s : Serializer κ} (h : Inv t c s)
    (r : Record κ ν) (sink : Sink) :
    Course t c s r.key sink (s.serialize r sink).result
      (s.serialize r sink).serializer.ledger := by
  rw [serialize_eq]
  exact writeRecord_course h r sink

end Serializer
end RecordTape
