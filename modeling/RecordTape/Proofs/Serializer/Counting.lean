import RecordTape.Proofs.Sink.Delivery
import RecordTape.Proofs.Writer.Pieces
import RecordTape.Serializer
/-!
# Counting what a sink accepts

A call puts a counting sink around the sink it is given and hands that down to the encoder, so that
every write goes through it: the header, the key, each early drain and the last flush, in whatever
parts the sink takes them and however often it is interrupted. What comes of the call is the same as
without the counting sink, and the count is what the sink inside has gained (`serialize_eq`).

Both are said at once by a relation between sinks: a counting sink that `Counts` from `n` on has
counted what the sink inside has accepted beyond the first `n` bytes. Sinks in such a relation,
which answer alike and stay in it (`Mirrors`), can take each other's place in whatever is built on
sinks.
-/

namespace RecordTape

/-- The first write of bytes that are to be written, and what follows from its result. -/
theorem ByteSink.writeAll_eq {σ : Type} [ByteSink σ] (s : σ) {data : Bytes}
    (h : ¬data.isEmpty = true) :
    writeAll s data =
      match (write s data).1 with
      | .interrupted => writeAll (write s data).2 data
      | .accepted n =>
        if 0 < n then writeAll (write s data).2 (data.drop n)
        else (.error .wroteNothing, (write s data).2)
      | .refused e => (.error e, (write s data).2) := by
  rw [writeAll, if_neg h]
  split <;> rename_i hwrite <;> rw [hwrite]

variable {σ τ : Type} [ByteSink σ] [ByteSink τ] {R : σ → τ → Prop}

/-! ## Sinks that mirror each other -/

/-- Sinks in the relation answer a write and a flush alike, and are in the relation after it. -/
structure ByteSink.Mirrors (R : σ → τ → Prop) : Prop where
  write {s : σ} {t : τ} (h : R s t) (data : Bytes) :
    (write s data).1 = (write t data).1 ∧ R (write s data).2 (write t data).2
  flush {s : σ} {t : τ} (h : R s t) : (flush s).1 = (flush t).1 ∧ R (flush s).2 (flush t).2

/-- The same encoder, bound to sinks in the relation. -/
structure Binding.Mirrors (R : σ → τ → Prop) (b : Binding σ) (c : Binding τ) : Prop where
  encoder : b.encoder = c.encoder
  sink : R b.sink c.sink

/-- The same call, but for the sinks, which are in the relation. -/
structure Serializer.Call.Mirrors {κ : Type} (R : σ → τ → Prop) (a : Call κ σ) (b : Call κ τ) :
    Prop where
  result : a.result = b.result
  serializer : a.serializer = b.serializer
  event : a.event = b.event
  sink : R a.sink b.sink

namespace ByteSink.Mirrors

variable (h : Mirrors R)
include h

theorem writeAll {s : σ} {t : τ} (hst : R s t) (data : Bytes) :
    (ByteSink.writeAll s data).1 = (ByteSink.writeAll t data).1 ∧
      R (ByteSink.writeAll s data).2 (ByteSink.writeAll t data).2 := by
  fun_induction ByteSink.writeAll s data generalizing t with
  | case1 s data hd =>
    rw [ByteSink.writeAll, if_pos hd]
    exact ⟨rfl, hst⟩
  | case2 s data hd s' hw ih =>
    obtain ⟨hresult, hnext⟩ := h.write hst data
    rw [hw] at hresult hnext
    rw [writeAll_eq t hd, ← hresult]
    exact ih hnext
  | case3 s data hd n s' hw hn ih =>
    obtain ⟨hresult, hnext⟩ := h.write hst data
    rw [hw] at hresult hnext
    rw [writeAll_eq t hd, ← hresult]
    simp only [if_pos hn]
    exact ih hnext
  | case4 s data hd n s' hw hn =>
    obtain ⟨hresult, hnext⟩ := h.write hst data
    rw [hw] at hresult hnext
    rw [writeAll_eq t hd, ← hresult]
    simp only [if_neg hn]
    exact ⟨trivial, hnext⟩
  | case5 s data hd e s' hw =>
    obtain ⟨hresult, hnext⟩ := h.write hst data
    rw [hw] at hresult hnext
    rw [writeAll_eq t hd, ← hresult]
    exact ⟨rfl, hnext⟩

/-! ## What is built on sinks -/

variable {b : Binding σ} {c : Binding τ}

theorem drain (hbc : b.Mirrors R c) : b.drain.1 = c.drain.1 ∧ b.drain.2.Mirrors R c.drain.2 := by
  obtain ⟨hencoder, hsink⟩ := hbc
  obtain ⟨hresult, hnext⟩ := h.writeAll hsink b.encoder.buffer
  unfold Binding.drain
  rw [← hencoder]
  generalize ByteSink.writeAll b.sink b.encoder.buffer = p at hresult hnext ⊢
  generalize ByteSink.writeAll c.sink b.encoder.buffer = q at hresult hnext ⊢
  obtain ⟨_ | _, s⟩ := p <;> obtain ⟨_, t⟩ := q <;> cases hresult <;> exact ⟨rfl, rfl, hnext⟩

theorem drainIfFull (hbc : b.Mirrors R c) :
    b.drainIfFull.1 = c.drainIfFull.1 ∧ b.drainIfFull.2.Mirrors R c.drainIfFull.2 := by
  unfold Binding.drainIfFull Binding.buffered
  rw [← hbc.encoder]
  split
  · exact h.drain hbc
  · exact ⟨rfl, hbc⟩

theorem flushBinding (hbc : b.Mirrors R c) :
    b.flush.1 = c.flush.1 ∧ b.flush.2.Mirrors R c.flush.2 := by
  obtain ⟨hresult, hnext⟩ := h.drain hbc
  unfold Binding.flush
  generalize b.drain = p at hresult hnext ⊢
  generalize c.drain = q at hresult hnext ⊢
  obtain ⟨_ | _, b⟩ := p <;> obtain ⟨_, c⟩ := q <;> cases hresult
  · exact ⟨rfl, hnext⟩
  · obtain ⟨hflush, hsink⟩ := h.flush hnext.sink
    exact ⟨hflush, hnext.encoder, hsink⟩

theorem writeDatum {α : Type} [Datum α] (hbc : b.Mirrors R c) (w : Writer) (d : α) :
    (w.write d b).1 = (w.write d c).1 ∧ (w.write d b).2.1 = (w.write d c).2.1 ∧
      (w.write d b).2.2.Mirrors R (w.write d c).2.2 := by
  unfold Writer.write
  simp only
  split
  · exact ⟨rfl, rfl, hbc⟩
  · split
    · split <;> exact ⟨rfl, rfl, hbc⟩
    · rename_i frame _
      have hbehind : (b.append (frame.drop Fingerprint.headerLength)).Mirrors R
          (c.append (frame.drop Fingerprint.headerLength)) :=
        ⟨by rw [Binding.append, Binding.append, hbc.encoder], hbc.sink⟩
      obtain ⟨hresult, hnext⟩ := h.drainIfFull hbehind
      simp only [HeaderFilter.write_eq]
      generalize (b.append (frame.drop Fingerprint.headerLength)).drainIfFull = p
        at hresult hnext ⊢
      generalize (c.append (frame.drop Fingerprint.headerLength)).drainIfFull = q
        at hresult hnext ⊢
      obtain ⟨_ | _, b⟩ := p <;> obtain ⟨_, c⟩ := q <;> cases hresult <;> exact ⟨rfl, rfl, hnext⟩

variable {κ ν : Type} [Datum κ] [Datum ν]

omit [Datum κ] in
theorem writeValue {s : σ} {t : τ} (hst : R s t) (z : Serializer κ) (value : ν) :
    (z.writeValue value s).1 = (z.writeValue value t).1 ∧
      (z.writeValue value s).2.1 = (z.writeValue value t).2.1 ∧
      R (z.writeValue value s).2.2 (z.writeValue value t).2.2 := by
  have hbound : (z.encoder.bind s).Mirrors R (z.encoder.bind t) := ⟨rfl, hst⟩
  obtain ⟨hresult, hwriter, hnext⟩ := h.writeDatum hbound z.valueWriter value
  unfold Serializer.writeValue
  generalize z.valueWriter.write value (z.encoder.bind s) = p at hresult hwriter hnext ⊢
  generalize z.valueWriter.write value (z.encoder.bind t) = q at hresult hwriter hnext ⊢
  obtain ⟨_ | _, w, b⟩ := p <;> obtain ⟨_, w', c⟩ := q <;> cases hresult <;> cases hwriter
  · exact ⟨rfl, congrArg (fun e => { z with valueWriter := w, encoder := e }) hnext.encoder,
      hnext.sink⟩
  · obtain ⟨hresult, hnext⟩ := h.flushBinding hnext
    simp only
    generalize b.flush = p at hresult hnext ⊢
    generalize c.flush = q at hresult hnext ⊢
    obtain ⟨_ | _, b⟩ := p <;> obtain ⟨_, c⟩ := q <;> cases hresult <;>
      exact ⟨rfl, congrArg (fun e => { z with valueWriter := w, encoder := e }) hnext.encoder,
        hnext.sink⟩

theorem writeRecord {s : σ} {t : τ} (hst : R s t) (z : Serializer κ) (r : Record κ ν) :
    (z.writeRecord r s).Mirrors R (z.writeRecord r t) := by
  obtain ⟨hheader, hst⟩ := h.writeAll hst emptyHeader
  unfold Serializer.writeRecord
  generalize ByteSink.writeAll s emptyHeader = p at hheader hst ⊢
  generalize ByteSink.writeAll t emptyHeader = q at hheader hst ⊢
  obtain ⟨_ | _, s⟩ := p <;> obtain ⟨_, t⟩ := q <;> cases hheader
  · exact ⟨rfl, rfl, rfl, hst⟩
  · simp only
    generalize z.obtainKey r.key = key
    obtain ⟨_ | ⟨bytes, event⟩, z⟩ := key
    · exact ⟨rfl, rfl, rfl, hst⟩
    · obtain ⟨hkey, hst⟩ := h.writeAll hst bytes
      simp only
      generalize ByteSink.writeAll s bytes = p at hkey hst ⊢
      generalize ByteSink.writeAll t bytes = q at hkey hst ⊢
      obtain ⟨_ | _, s⟩ := p <;> obtain ⟨_, t⟩ := q <;> cases hkey
      · exact ⟨rfl, rfl, rfl, hst⟩
      · obtain ⟨hvalue, hserializer, hst⟩ := h.writeValue hst z r.value
        exact ⟨hvalue, hserializer, rfl, hst⟩

end ByteSink.Mirrors

/-! ## The count -/

/-- The number of bytes that a write has accepted. -/
def WriteResult.taken : WriteResult → Nat
  | accepted n => n
  | _ => 0

namespace Sink

/-- One write adds what it accepts. -/
theorem length_accepted_write (s : Sink) (data : Bytes) :
    (s.write data).2.accepted.length = s.accepted.length + (s.write data).1.taken := by
  have hroom := s.room_le data
  unfold write
  split
  · rfl
  · split
    · split <;> rfl
    · simp only
      split
      · rfl
      · simp only [accept, WriteResult.taken, List.length_append, List.length_take]
        omega

end Sink

namespace CountingSink

/-- The counting sink is around the sink, and has counted what this has accepted beyond the first
`n` bytes. -/
structure Counts (n : Nat) (s : CountingSink) (t : Sink) : Prop where
  inner : s.inner = t
  written : n + s.written = t.accepted.length

/-- One write changes the count by what it accepts. -/
theorem mirrors_counts (n : Nat) : ByteSink.Mirrors (Counts n) where
  write := by
    rintro ⟨s, written⟩ _ ⟨rfl, hwritten⟩ data
    have hgain := s.length_accepted_write data
    have hwrite : ByteSink.write (CountingSink.mk s written) data =
        ((s.write data).1, ⟨(s.write data).2, written + (s.write data).1.taken⟩) := by
      change write _ data = _
      unfold write
      simp only
      generalize s.write data = p
      obtain ⟨_ | _ | _, t⟩ := p <;> rfl
    rw [hwrite]
    exact ⟨rfl, rfl, by rw [← Nat.add_assoc, hwritten]; exact hgain.symm⟩
  flush := by
    rintro ⟨s, written⟩ _ ⟨rfl, hwritten⟩
    exact ⟨rfl, rfl, hwritten.trans (congrArg List.length s.accepted_flush).symm⟩

end CountingSink

namespace Serializer

variable {κ ν : Type} [Datum κ] [Datum ν]

/-- A call does to the sink what writing the record to it does, and counts the bytes that the sink
has gained by it. -/
theorem serialize_eq (s : Serializer κ) (r : Record κ ν) (sink : Sink) :
    s.serialize r sink =
      let call := s.writeRecord r sink
      let stats := call.serializer.stats
      { call with
        serializer := { call.serializer with
          stats := { stats with
            bytesWritten :=
              stats.bytesWritten + (call.sink.accepted.length - sink.accepted.length)
            records := stats.records + (if call.result.isOk then 1 else 0) } } } := by
  have hstart : CountingSink.Counts sink.accepted.length ⟨sink, 0⟩ sink := ⟨rfl, rfl⟩
  obtain ⟨hresult, hserializer, hevent, hinner, hwritten⟩ :=
    (CountingSink.mirrors_counts sink.accepted.length).writeRecord hstart s r
  unfold serialize
  simp only [hresult, hserializer, hevent, hinner]
  rw [← hwritten, Nat.add_sub_cancel_left]

end Serializer
end RecordTape
