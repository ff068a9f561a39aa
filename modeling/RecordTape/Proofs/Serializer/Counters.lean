import Mathlib.Algebra.GroupWithZero.Nat
import RecordTape.Proofs.Outcome
import RecordTape.Proofs.Serializer.Course
import RecordTape.Proofs.Serializer.Independence
/-!
# The counters

A serializer counts bytes, records, uses of the kept key and keys encoded; how often its writers
were asked can be told from outside. After any run these numbers say what happened in its calls
(`counters_reconcile`). A run is made of calls that returned: a fault ends the program, and no
counters are left to look at.
-/

namespace RecordTape

namespace Sink

/-- Between two states a sink accepted these pieces, each in one write. -/
structure Received (s s' : Sink) (pieces : List Bytes) : Prop where
  accepted : s'.accepted = s.accepted ++ pieces.flatten
  writes : s'.writes = s.writes ++ pieces.map List.length

theorem Received.nil {s s' : Sink} (ha : s'.accepted = s.accepted) (hw : s'.writes = s.writes) :
    Received s s' [] :=
  ⟨by simp [ha], by simp [hw]⟩

theorem Received.append {a b c : Sink} {ps qs : List Bytes} (h : Received a b ps)
    (h' : Received b c qs) : Received a c (ps ++ qs) :=
  ⟨by rw [h'.accepted, h.accepted]; simp, by rw [h'.writes, h.writes]; simp⟩

/-- One write is one piece, or none if it takes nothing. -/
theorem exists_received_write (s : Sink) (data : Bytes) :
    ∃ pieces, Received s (ByteSink.write s data).2 pieces := by
  rw [byteSink_write]
  unfold write
  split
  · exact ⟨[], .nil rfl rfl⟩
  · split
    · split <;> exact ⟨[], .nil rfl rfl⟩
    · simp only
      split
      · exact ⟨[], .nil rfl rfl⟩
      · exact ⟨[data.take (s.room data)], by simp [accept], by simp [accept]⟩

/-- Writing to the end is any number of writes, interrupted ones apart. -/
theorem exists_received_writeAll (s : Sink) (data : Bytes) :
    ∃ pieces, Received s (ByteSink.writeAll s data).2 pieces := by
  fun_induction ByteSink.writeAll s data with
  | case1 s data hd => exact ⟨[], .nil rfl rfl⟩
  | case2 s data hd s' hw ih =>
    obtain ⟨first, hfirst⟩ := s.exists_received_write data
    obtain ⟨rest, hrest⟩ := ih
    rw [hw] at hfirst
    exact ⟨first ++ rest, hfirst.append hrest⟩
  | case3 s data hd n s' hw hn ih =>
    obtain ⟨first, hfirst⟩ := s.exists_received_write data
    obtain ⟨rest, hrest⟩ := ih
    rw [hw] at hfirst
    exact ⟨first ++ rest, hfirst.append hrest⟩
  | case4 s data hd n s' hw hn =>
    have hfirst := s.exists_received_write data
    rwa [hw] at hfirst
  | case5 s data hd e s' hw =>
    have hfirst := s.exists_received_write data
    rwa [hw] at hfirst

theorem received_flush (s : Sink) : Received s s.flush.2 [] := by
  unfold flush
  cases s.flushFailure <;> exact .nil rfl rfl

/-- A sink that takes bytes takes those in front of them. -/
theorem takes_of_takes_append {s : Sink} {a b : Bytes} (h : s.takes (a ++ b)) : s.takes a := by
  unfold takes share at *
  simp only [List.length_append, decide_eq_true_eq] at h ⊢
  split at h
  · rw [if_pos ‹_›]; omega
  · rw [if_neg ‹_›]
    cases hl : s.limit with
    | none => rfl
    | some limit => simp only [hl] at h ⊢; omega

end Sink

namespace Serializer

open Sink (Received)

variable {κ ν : Type} [Datum κ] [Datum ν]

theorem exists_received_answer (key value : Outcome TapeError Bytes) (sink : Sink) :
    ∃ pieces, Received sink (answer key value sink).2 pieces := by
  unfold answer
  obtain ⟨hs, hheader⟩ := sink.exists_received_writeAll emptyHeader
  generalize ByteSink.writeAll sink emptyHeader = p at hheader
  obtain ⟨_ | _, sink₁⟩ := p
  · exact ⟨hs, hheader⟩
  · rcases key with stop | bytes
    · exact ⟨hs, hheader⟩
    · obtain ⟨ks, hkey⟩ := sink₁.exists_received_writeAll bytes
      simp only
      generalize ByteSink.writeAll sink₁ bytes = p at hkey
      obtain ⟨_ | _, sink₂⟩ := p
      · exact ⟨_, hheader.append hkey⟩
      · have hbefore := hheader.append hkey
        rcases value with stop | bytes
        · exact ⟨_, hbefore⟩
        · obtain ⟨vs, hvalue⟩ := sink₂.exists_received_writeAll bytes
          simp only [answerValue, Sink.deliver]
          generalize ByteSink.writeAll sink₂ bytes = p at hvalue
          obtain ⟨_ | _, sink₃⟩ := p
          · exact ⟨_, hbefore.append hvalue⟩
          · have hflush := sink₃.received_flush
            simp only
            generalize sink₃.flush = p at hflush
            obtain ⟨_ | _, sink₄⟩ := p <;> exact ⟨_, (hbefore.append hvalue).append hflush⟩

/-! ## Totals

Bytes and records are counted at the end of a call, and by nothing before it. -/

/-- The counts of records and bytes. -/
def totals (s : Serializer κ) : Nat × Nat := (s.stats.records, s.stats.bytesWritten)

theorem obtainKey_totals (s : Serializer κ) (key : κ) :
    (s.obtainKey key).2.totals = s.totals := by
  obtain ⟨w, e, hencode⟩ := s.exists_encodeKey key
  unfold obtainKey
  split
  · rfl
  · generalize s.encodeKey key = p at hencode
    obtain ⟨_ | bytes, s'⟩ := p <;> cases hencode <;> rfl

theorem writeRecord_totals (s : Serializer κ) (r : Record κ ν) (sink : Sink) :
    (s.writeRecord r sink).serializer.totals = s.totals := by
  have hkey := s.obtainKey_totals r.key
  unfold writeRecord
  split
  · rfl
  · generalize s.obtainKey r.key = p at hkey
    obtain ⟨_ | ⟨bytes, event⟩, s'⟩ := p
    · exact hkey
    · simp only
      split
      · exact hkey
      · rename_i sink' _
        obtain ⟨w, e, hvalue⟩ := s'.exists_writeValue r.value sink'
        rw [hvalue]
        exact hkey

/-! ## Calls -/

/-- A call that was made: the state before it, its record and its sink. -/
structure Attempt (κ ν : Type) where
  before : Serializer κ
  record : Record κ ν
  sink : Sink

namespace Attempt

def call (a : Attempt κ ν) : Call κ := a.before.serialize a.record a.sink

def bytes (a : Attempt κ ν) : Bytes := a.call.sink.accepted.drop a.sink.accepted.length

/-- The sizes of the writes that the sink accepted. -/
def sizes (a : Attempt κ ν) : List Nat := a.call.sink.writes.drop a.sink.writes.length

/-- The call came back, with an error or without. -/
def returned (a : Attempt κ ν) : Bool :=
  match a.call.result with
  | .error (.fault _) => false
  | _ => true

def succeeded (a : Attempt κ ν) : Bool := a.call.result.isOk

/-- The call got past the header and had bytes for its key. -/
def hasKey (t : Topic) (a : Attempt κ ν) : Bool :=
  a.sink.takes emptyHeader && (a.before.keyBytes t a.record.key).isOk

/-- The call failed with an encoding error and had no bytes for its key. -/
def keyUnencodable (t : Topic) (a : Attempt κ ν) : Bool :=
  (match a.call.result with
    | .error (.error e) => e.isEncoding
    | _ => false) && !(a.before.keyBytes t a.record.key).isOk

/-- The sink took the header and the bytes of the key in full. -/
def reachesValue (t : Topic) (a : Attempt κ ν) : Bool :=
  match a.before.keyBytes t a.record.key with
  | .ok bytes => a.sink.takes (emptyHeader ++ bytes)
  | .error _ => false

end Attempt

section Step

variable {t : Topic} {c : SerializerConfig} {a : Attempt κ ν}

/-- What the sink accepted came in pieces. -/
theorem received_attempt (h : Inv t c a.before) : ∃ pieces, Received a.sink a.call.sink pieces := by
  have hanswer := (serialize_spec h a.record a.sink).1
  rw [Attempt.call, (Prod.mk.inj hanswer).2]
  exact exists_received_answer ..

/-- A call that succeeds had its key and the value was asked for. -/
theorem reachesValue_of_succeeded (h : Inv t c a.before) (hok : a.succeeded) :
    a.reachesValue t := by
  have hanswer := (serialize_spec h a.record a.sink).1
  have hend := answer_ending (isEncoding_keyBytes h a.record.key)
    (isEncoding_encodeAlone h.valueWriter a.record.value) a.sink
  rw [← hanswer] at hend
  unfold Attempt.succeeded Attempt.call at hok
  unfold Attempt.reachesValue
  simp only at hend
  generalize (a.before.serialize a.record a.sink).result = result at hok hend
  cases hend with
  | done hk _ hall _ _ =>
    rw [hk]
    exact Sink.takes_of_takes_append (decide_eq_true hall)
  | _ => cases hok

section Outcome

omit [Datum ν]

theorem hasKey_of_reachesValue (h : a.reachesValue t) : a.hasKey t := by
  unfold Attempt.reachesValue at h
  unfold Attempt.hasKey
  split at h
  · rename_i bytes hbytes
    rw [hbytes, Sink.takes_of_takes_append h]
    rfl
  · cases h

/-- Without its header a call has no key and does not come to its value. -/
theorem hasKey_of_refused (hrefused : a.sink.takes emptyHeader = false) :
    a.hasKey t = false ∧ a.reachesValue t = false := by
  have hkey : a.hasKey t = false := by rw [Attempt.hasKey, hrefused, Bool.false_and]
  refine ⟨hkey, ?_⟩
  by_contra hvalue
  rw [hasKey_of_reachesValue (by simpa using hvalue)] at hkey
  cases hkey

theorem without_key {stop : Stop TapeError} (h : a.before.keyBytes t a.record.key = .error stop) :
    a.hasKey t = false ∧ a.reachesValue t = false := by
  rw [Attempt.hasKey, Attempt.reachesValue, h]
  exact ⟨Bool.and_false _, rfl⟩

theorem with_key {bytes : Bytes} (h : a.before.keyBytes t a.record.key = .ok bytes)
    (htakes : a.sink.takes emptyHeader) :
    a.hasKey t = true ∧ a.reachesValue t = a.sink.takes (emptyHeader ++ bytes) := by
  rw [Attempt.hasKey, Attempt.reachesValue, h, htakes]
  exact ⟨rfl, rfl⟩

end Outcome

/-- What one call adds to the counts of keys and of what the writers were asked. -/
theorem counted_keys (h : Inv t c a.before) (hret : a.returned) :
    let s := a.before
    let s' := a.call.serializer
    s'.stats.keyCacheHits + s'.stats.keyEncodings =
        s.stats.keyCacheHits + s.stats.keyEncodings + (if a.hasKey t then 1 else 0) ∧
      s'.keyWriter.calls + s.stats.keyEncodings =
        s.keyWriter.calls + s'.stats.keyEncodings + (if a.keyUnencodable t then 1 else 0) ∧
      s'.valueWriter.calls = s.valueWriter.calls + (if a.reachesValue t then 1 else 0) := by
  intro s s'
  have hcourse : Course t c s a.record.key a.sink a.call.result s'.ledger :=
    serialize_course h a.record a.sink
  change s'.ledger.hits + s'.ledger.encodings = _ ∧
    s'.ledger.keyCalls + _ = _ + s'.ledger.encodings + _ ∧ s'.ledger.valueCalls = _
  unfold Attempt.returned at hret
  unfold Attempt.keyUnencodable
  generalize a.call.result = result at hcourse hret ⊢
  generalize s'.ledger = ledger at hcourse
  cases hcourse with
  | headerRefused hrefused =>
    obtain ⟨hkey, hvalue⟩ := hasKey_of_refused (t := t) hrefused
    rw [hkey, hvalue]
    simp [Serializer.ledger, TapeError.isEncoding]
  | @keyFailed stop ledger htakes hcourse =>
    cases hcourse with
    | failed hheld hbytes =>
      have hkey : a.before.keyBytes t a.record.key = .error stop := by
        rw [keyBytes_of_not_holdsKey t hheld, h.config, hbytes]
      obtain ⟨hhas, hreaches⟩ := without_key hkey
      rcases stop with e | f
      · obtain ⟨f, rfl⟩ := isEncoding_keyBytes h a.record.key e hkey
        have hasks : keyAsks c = 1 := keyAsks_of_no_fault t a.record.key (by simp [hbytes])
        rw [hhas, hreaches, hkey, hasks]
        simp [Serializer.ledger, s, TapeError.isEncoding, Except.isOk, Except.toBool]
        omega
      · cases hret
  | @keyHad bytes event ledger result htakes hcourse =>
    have hkey : a.before.keyBytes t a.record.key = .ok bytes := hcourse.keyBytes h
    obtain ⟨hhas, hreaches⟩ := with_key hkey htakes
    rw [hhas, hreaches, hkey]
    cases hcourse with
    | kept hheld hcache =>
      simp [Serializer.ledger, s, valueAsks, Except.isOk, Except.toBool]
      omega
    | new hheld hbytes =>
      simp [Serializer.ledger, s, valueAsks, Except.isOk, Except.toBool]
      omega

/-- The sink has the bytes of the call behind those it had, in writes of these sizes. -/
theorem bytes_attempt (h : Inv t c a.before) :
    a.call.sink.accepted = a.sink.accepted ++ a.bytes ∧
      a.call.sink.writes = a.sink.writes ++ a.sizes ∧ a.sizes.sum = a.bytes.length := by
  obtain ⟨pieces, haccepted, hwrites⟩ := received_attempt h
  have hbytes : a.bytes = pieces.flatten := by rw [Attempt.bytes, haccepted, List.drop_left]
  have hsizes : a.sizes = pieces.map List.length := by rw [Attempt.sizes, hwrites, List.drop_left]
  rw [hbytes, hsizes, List.length_flatten]
  exact ⟨haccepted, hwrites, rfl⟩

/-- What one call adds to the counts of bytes and records. -/
theorem counted_bytes (h : Inv t c a.before) :
    a.call.serializer.stats.bytesWritten = a.before.stats.bytesWritten + a.bytes.length ∧
      a.call.serializer.stats.records = a.before.stats.records + if a.succeeded then 1 else 0 := by
  have htotals := Prod.mk.inj (a.before.writeRecord_totals a.record a.sink)
  have hbytes := congrArg List.length (bytes_attempt h).1
  rw [List.length_append] at hbytes
  have hgain : a.call.sink.accepted.length - a.sink.accepted.length = a.bytes.length := by omega
  rw [← htotals.1, ← htotals.2, ← hgain]
  unfold Attempt.succeeded Attempt.call
  rw [serialize_eq]
  exact ⟨rfl, rfl⟩

end Step

/-! ## Runs -/

/-- A new writer was not asked for anything yet. -/
theorem calls_of_forSchema {schema : Schema} {w : Writer} (h : Writer.forSchema schema = .ok w) :
    w.calls = 0 := by
  obtain ⟨scratch, -, ⟨⟩⟩ := Outcome.bind_eq_ok.mp (Writer.create_of_forSchema h)
  rfl

/-- The calls of a serializer of a topic and tuning, in order, and its state after them. Each call
goes to any sink, and each returned. -/
inductive Run (ν : Type) [Datum ν] (t : Topic) (c : SerializerConfig) :
    List (Attempt κ ν) → Serializer κ → Prop
  | create {s : Serializer κ} : Serializer.create κ t c = .ok s → Run ν t c [] s
  | call {calls : List (Attempt κ ν)} {s : Serializer κ} (r : Record κ ν) (sink : Sink) :
    Run ν t c calls s → (⟨s, r, sink⟩ : Attempt κ ν).returned →
    Run ν t c (calls ++ [⟨s, r, sink⟩]) (s.serialize r sink).serializer

theorem Run.reachable {t : Topic} {c : SerializerConfig} {calls : List (Attempt κ ν)}
    {s : Serializer κ} (h : Run ν t c calls s) : Reachable ν t c s := by
  induction h with
  | create h => exact .create h
  | call r sink _ _ ih => exact .serialize r sink ih

/-- The counters say what happened in the calls. -/
structure Reconciled (t : Topic) (calls : List (Attempt κ ν)) (s : Serializer κ) : Prop where
  /-- Sinks only ever gain bytes, write by write. -/
  accepted : ∀ a ∈ calls, a.call.sink.accepted = a.sink.accepted ++ a.bytes ∧
    a.call.sink.writes = a.sink.writes ++ a.sizes ∧ a.sizes.sum = a.bytes.length
  bytes : s.stats.bytesWritten = (calls.map fun a => a.bytes.length).sum
  records : s.stats.records = calls.countP Attempt.succeeded
  keys : s.stats.keyCacheHits + s.stats.keyEncodings = calls.countP (Attempt.hasKey t)
  keyCalls : s.stats.keyEncodings + calls.countP (Attempt.keyUnencodable t) = s.keyWriter.calls
  valueCalls : s.valueWriter.calls = calls.countP (Attempt.reachesValue t)
  records_le : s.stats.records ≤ s.valueWriter.calls
  valueCalls_le : s.valueWriter.calls ≤ s.stats.keyCacheHits + s.stats.keyEncodings
  keys_le : s.stats.keyCacheHits + s.stats.keyEncodings ≤ calls.length

/-- Every call of a run was made in a state with the invariant. -/
theorem Run.inv {t : Topic} {c : SerializerConfig} {calls : List (Attempt κ ν)}
    {s : Serializer κ} (h : Run ν t c calls s) : ∀ a ∈ calls, Inv t c a.before := by
  induction h with
  | create _ => intro a ha; cases ha
  | call r sink hrun _ ih =>
    intro a ha
    rcases List.mem_append.mp ha with ha | ha
    · exact ih a ha
    · rw [List.mem_singleton.mp ha]
      exact hrun.reachable.inv

/-- The counts after a run are those before the last call and what that call adds. -/
theorem reconciled_counts {t : Topic} {c : SerializerConfig} {calls : List (Attempt κ ν)}
    {s : Serializer κ} (h : Run ν t c calls s) :
    s.stats.bytesWritten = (calls.map fun a => a.bytes.length).sum ∧
      s.stats.records = calls.countP Attempt.succeeded ∧
      s.stats.keyCacheHits + s.stats.keyEncodings = calls.countP (Attempt.hasKey t) ∧
      s.stats.keyEncodings + calls.countP (Attempt.keyUnencodable t) = s.keyWriter.calls ∧
      s.valueWriter.calls = calls.countP (Attempt.reachesValue t) := by
  induction h with
  | create h =>
    obtain ⟨k, v, e, hk, hv, rfl⟩ := create_eq_ok h
    exact ⟨rfl, rfl, rfl, (calls_of_forSchema hk).symm, calls_of_forSchema hv⟩
  | @call calls s r sink hrun hret ih =>
    obtain ⟨hbytes, hrecords, hkeys, hkeyCalls, hvalueCalls⟩ := ih
    have hinv : Inv t c (⟨s, r, sink⟩ : Attempt κ ν).before := hrun.reachable.inv
    obtain ⟨hbytes', hrecords'⟩ := counted_bytes hinv
    obtain ⟨hkeys', hkeyCalls', hvalueCalls'⟩ := counted_keys hinv hret
    simp only [List.map_append, List.sum_append, List.countP_append, List.map_singleton,
      List.sum_singleton, List.countP_singleton]
    simp only [Attempt.call] at hbytes' hrecords' hkeys' hkeyCalls' hvalueCalls'
    refine ⟨?_, ?_, ?_, ?_, ?_⟩ <;> omega

/-- After any run the counters say what happened in its calls. -/
theorem counters_reconcile {t : Topic} {c : SerializerConfig} {calls : List (Attempt κ ν)}
    {s : Serializer κ} (h : Run ν t c calls s) : Reconciled t calls s := by
  have hinv := h.inv
  obtain ⟨hbytes, hrecords, hkeys, hkeyCalls, hvalueCalls⟩ := reconciled_counts h
  refine
    { accepted := fun a ha => bytes_attempt (hinv a ha)
      bytes := hbytes
      records := hrecords
      keys := hkeys
      keyCalls := hkeyCalls
      valueCalls := hvalueCalls
      records_le := ?_
      valueCalls_le := ?_
      keys_le := ?_ }
  · rw [hrecords, hvalueCalls]
    exact List.countP_mono_left fun a ha hok => reachesValue_of_succeeded (hinv a ha) hok
  · rw [hvalueCalls, hkeys]
    exact List.countP_mono_left fun a _ hvalue => hasKey_of_reachesValue hvalue
  · rw [hkeys]
    exact List.countP_le_length

/-- Four calls, of which one succeeds: a new key, the same one with a value that is no long, a key
that is no text, and a sink that is interrupted and takes one byte of the key. -/
theorem counters_reconcile_four_calls :
    ∃ (calls : List (Attempt Json Json)) (s : Serializer Json),
      Run Json wordTopic .default calls s ∧ Reconciled wordTopic calls s ∧ calls.length = 4 ∧
      s.stats = ⟨1, 1, 2, 38⟩ ∧ s.keyWriter.calls = 3 ∧ s.valueWriter.calls = 2 := by
  let narrow : Sink := { Sink.memory with limit := some 9, chunk := some 3, interrupts := 1 }
  have h₁ : Run Json wordTopic .default _ (_ : Serializer Json) :=
    .call (⟨.string "a", .int 1⟩ : Record Json Json) Sink.memory (.create rfl) (by decide +kernel)
  have h₂ : Run Json wordTopic .default _ (_ : Serializer Json) :=
    .call ⟨.string "a", .string "five"⟩ Sink.memory h₁ (by decide +kernel)
  have h₃ : Run Json wordTopic .default _ (_ : Serializer Json) :=
    .call ⟨.int 7, .int 1⟩ Sink.memory h₂ (by decide +kernel)
  have h : Run Json wordTopic .default _ (_ : Serializer Json) :=
    .call ⟨.string "b", .int 2⟩ narrow h₃ (by decide +kernel)
  exact ⟨_, _, h, counters_reconcile h, rfl, by decide +kernel, by decide +kernel,
    by decide +kernel⟩

end Serializer
end RecordTape
