import RecordTape.Datum.Typed
import RecordTape.Proofs.Serializer.Invariant
/-!
# How a call ends

A call writes the header, the bytes of the key and the bytes of the value, and stops at the first of
them that cannot be had or that the sink refuses. `Ending` lists the ways in which it can end, each
with the result, the bytes that the sink has gained and the number of flushes, and
`serialize_ending` says that every call ends in one of them. A datum that is not encoded is reported
as such, unless encoding it is a fault: then the call is that fault
(`serialize_faults_on_wide_decimal`).
-/

namespace RecordTape

namespace Sink

/-- `after` is `before` with these bytes accepted and this many flushes made. -/
structure Gained (before after : Sink) (bytes : Bytes) (flushes : Nat) : Prop where
  accepted : after.accepted = before.accepted ++ bytes
  flushes : after.flushes = before.flushes + flushes

/-- The share of what comes after bytes that were accepted in full. -/
theorem share_append {s s' : Sink} {a : Bytes} (h : ByteSink.writeAll s a = (.ok (), s'))
    (b : Bytes) :
    s.share a.length = a.length ∧ a.length + s'.share b.length = s.share (a ++ b).length ∧
      Gained s s' a 0 := by
  obtain ⟨ha, ht, hok⟩ := s.writeAll_spec a
  rw [h] at ha ht hok
  have hall : s.share a.length = a.length := hok.1 rfl
  rw [hall, List.take_length] at ha
  refine ⟨hall, ?_, ha, ht.flushes⟩
  simp only at ha
  unfold share at hall ⊢
  rw [ht.chunk, ht.limit, ha]
  simp only [List.length_append]
  split at hall
  · rw [if_pos ‹_›, if_pos ‹_›]; omega
  · rw [if_neg ‹_›, if_neg ‹_›]
    cases hl : s.limit with
    | none => rfl
    | some limit => simp only [hl] at hall ⊢; omega

/-- What a sink is left with that refuses within bytes. -/
theorem share_of_refused {s s' : Sink} {a : Bytes} {e : IoError}
    (h : ByteSink.writeAll s a = (.error e, s')) :
    s.share a.length < a.length ∧ Gained s s' (a.take (s.share a.length)) 0 := by
  obtain ⟨ha, ht, hok⟩ := s.writeAll_spec a
  rw [h] at ha ht hok
  have hle := s.share_le a.length
  have hne : s.share a.length ≠ a.length := fun he => by simpa using hok.2 he
  exact ⟨by omega, ha, ht.flushes⟩

theorem Gained.append {a b c : Sink} {x y : Bytes} {m n : Nat} (h : Gained a b x m)
    (h' : Gained b c y n) : Gained a c (x ++ y) (m + n) :=
  ⟨by rw [h'.accepted, h.accepted, List.append_assoc], by rw [h'.flushes, h.flushes]; omega⟩

/-- A flush is one flush, and fails by the sink's terms alone. -/
theorem flush_eq (s : Sink) :
    Gained s s.flush.2 [] 1 ∧
      s.flush.1 =
        match s.flushFailure with
        | some text => .error ⟨.other, text⟩
        | none => .ok () := by
  unfold flush
  cases s.flushFailure <;> exact ⟨⟨by simp, rfl⟩, rfl⟩

end Sink

namespace Serializer

open Sink (Gained)

variable {κ ν : Type} [Datum κ] [Datum ν]

/-- The ways in which a call can end, given the bytes of its key and value. The first refusal or
failure decides. -/
inductive Ending (sink after : Sink) (key value : Outcome TapeError Bytes) :
    Outcome TapeError Unit → Prop
  | headerRefused {e : IoError} :
    sink.share emptyHeader.length < emptyHeader.length →
    Gained sink after (emptyHeader.take (sink.share emptyHeader.length)) 0 →
    Ending sink after key value (.error (.error (.io e)))
  | keyUnencodable {f : EncodingFailure} :
    sink.share emptyHeader.length = emptyHeader.length →
    key = .error (.error (.encoding f)) →
    Gained sink after emptyHeader 0 →
    Ending sink after key value (.error (.error (.encoding f)))
  | keyFault {f : Fault} :
    sink.share emptyHeader.length = emptyHeader.length →
    key = .error (.fault f) →
    Gained sink after emptyHeader 0 →
    Ending sink after key value (.error (.fault f))
  | keyRefused {k : Bytes} {e : IoError} :
    sink.share emptyHeader.length = emptyHeader.length →
    key = .ok k →
    sink.share (emptyHeader ++ k).length < (emptyHeader ++ k).length →
    Gained sink after ((emptyHeader ++ k).take (sink.share (emptyHeader ++ k).length)) 0 →
    Ending sink after key value (.error (.error (.io e)))
  | valueUnencodable {k : Bytes} {f : EncodingFailure} :
    key = .ok k →
    sink.share (emptyHeader ++ k).length = (emptyHeader ++ k).length →
    value = .error (.error (.encoding f)) →
    Gained sink after (emptyHeader ++ k) 0 →
    Ending sink after key value (.error (.error (.encoding f)))
  | valueFault {k : Bytes} {f : Fault} :
    key = .ok k →
    sink.share (emptyHeader ++ k).length = (emptyHeader ++ k).length →
    value = .error (.fault f) →
    Gained sink after (emptyHeader ++ k) 0 →
    Ending sink after key value (.error (.fault f))
  | valueRefused {k v : Bytes} {e : IoError} :
    key = .ok k →
    sink.share (emptyHeader ++ k).length = (emptyHeader ++ k).length →
    value = .ok v →
    sink.share (emptyHeader ++ k ++ v).length < (emptyHeader ++ k ++ v).length →
    Gained sink after
      ((emptyHeader ++ k ++ v).take (sink.share (emptyHeader ++ k ++ v).length)) 0 →
    Ending sink after key value (.error (.error (.io e)))
  | flushFailed {k v : Bytes} {text : String} :
    key = .ok k →
    value = .ok v →
    sink.share (emptyHeader ++ k ++ v).length = (emptyHeader ++ k ++ v).length →
    sink.flushFailure = some text →
    Gained sink after (emptyHeader ++ k ++ v) 1 →
    Ending sink after key value (.error (.error (.io ⟨.other, text⟩)))
  | done {k v : Bytes} :
    key = .ok k →
    value = .ok v →
    sink.share (emptyHeader ++ k ++ v).length = (emptyHeader ++ k ++ v).length →
    sink.flushFailure = none →
    Gained sink after (emptyHeader ++ k ++ v) 1 →
    Ending sink after key value (.ok ())

/-- All that a call may append: header, key and value, up to the first of them that there is not. -/
def layout (key value : Outcome TapeError Bytes) : Bytes :=
  match key, value with
  | .error _, _ => emptyHeader
  | .ok k, .error _ => emptyHeader ++ k
  | .ok k, .ok v => emptyHeader ++ k ++ v

/-! ## The answer ends in one of the ways -/

/-- An outcome of encoding: it reports no other errors. -/
def IsEncoding (o : Outcome TapeError Bytes) : Prop :=
  ∀ e, o = .error (.error e) → ∃ f, e = .encoding f

theorem isEncoding_mapError (o : Outcome EncodingFailure Bytes) :
    IsEncoding (o.mapError .encoding) := by
  intro e h
  rcases o with (f | f) | b <;> cases h
  exact ⟨f, rfl⟩

theorem isEncoding_encodeAlone {α : Type} [Datum α] {schema : Schema} {w : Writer}
    (hw : Writer.Ready schema w) (d : α) : IsEncoding (Writer.encodeAlone schema d) := by
  rw [Writer.encodeAlone_of_ready hw]
  exact isEncoding_mapError _

theorem isEncoding_keyBytes {t : Topic} {c : SerializerConfig} {s : Serializer κ} (h : Inv t c s)
    (key : κ) : IsEncoding (s.keyBytes t key) := by
  unfold keyBytes
  split
  · rintro e ⟨⟩
  · split
    · rintro e ⟨⟩
    · exact isEncoding_encodeAlone h.keyWriter key

/-- The value is written behind header and key, and the sink flushed if it takes all of it. -/
theorem answerValue_ending {sink s : Sink} {k : Bytes} {value : Outcome TapeError Bytes}
    (hv : IsEncoding value) (hs : Sink.SameTerms sink s)
    (hall : sink.share (emptyHeader ++ k).length = (emptyHeader ++ k).length)
    (hg : Gained sink s (emptyHeader ++ k) 0)
    (hsum : ∀ v : Bytes, (emptyHeader ++ k).length + s.share v.length =
      sink.share (emptyHeader ++ k ++ v).length) :
    Ending sink (answerValue value s).2 (.ok k) value (answerValue value s).1 := by
  rcases value with (e | f) | v
  · obtain ⟨f, rfl⟩ := hv e rfl
    exact .valueUnencodable rfl hall rfl hg
  · exact .valueFault rfl hall rfl hg
  · have hlen : (emptyHeader ++ k ++ v).length = (emptyHeader ++ k).length + v.length :=
      List.length_append
    simp only [answerValue, Sink.deliver]
    rcases hw : ByteSink.writeAll s v with ⟨e | _, s'⟩
    · obtain ⟨hlt, hg'⟩ := Sink.share_of_refused hw
      have hgain := hg.append hg'
      rw [← List.take_length_add_append, hsum] at hgain
      exact .valueRefused rfl hall rfl (by rw [← hsum, hlen]; omega) hgain
    · obtain ⟨hfull, -, hg'⟩ := Sink.share_append hw []
      have ht := (hs.trans (by simpa only [hw] using s.sameTerms_writeAll v)).flushFailure
      have hfull : sink.share (emptyHeader ++ k ++ v).length = (emptyHeader ++ k ++ v).length := by
        rw [← hsum, hfull, hlen]
      obtain ⟨hflush, hresult⟩ := s'.flush_eq
      have hgain : Gained sink s'.flush.2 (emptyHeader ++ k ++ v) 1 := by
        simpa using (hg.append hg').append hflush
      rw [ht] at hresult
      dsimp only
      generalize s'.flush = p at hresult hgain
      obtain ⟨result, after⟩ := p
      cases hf : sink.flushFailure with
      | none => rw [hf] at hresult; subst hresult; exact .done rfl rfl hfull hf hgain
      | some text => rw [hf] at hresult; subst hresult; exact .flushFailed rfl rfl hfull hf hgain

theorem answer_ending {key value : Outcome TapeError Bytes} (hk : IsEncoding key)
    (hv : IsEncoding value) (sink : Sink) :
    Ending sink (answer key value sink).2 key value (answer key value sink).1 := by
  unfold answer
  rcases hh : ByteSink.writeAll sink emptyHeader with ⟨e | _, s₁⟩
  · obtain ⟨hlt, hg⟩ := Sink.share_of_refused hh
    exact .headerRefused hlt hg
  · obtain ⟨hall, -, hg⟩ := Sink.share_append hh []
    rcases key with (e | f) | k
    · obtain ⟨f, rfl⟩ := hk e rfl
      exact .keyUnencodable hall rfl hg
    · exact .keyFault hall rfl hg
    · have hsum := (Sink.share_append hh k).2.1
      simp only
      rcases hw : ByteSink.writeAll s₁ k with ⟨e | _, s₂⟩
      · obtain ⟨hlt, hg'⟩ := Sink.share_of_refused hw
        have hgain := hg.append hg'
        rw [← List.take_length_add_append, hsum] at hgain
        exact .keyRefused hall rfl (by rw [← hsum, List.length_append]; omega) hgain
      · obtain ⟨hfull, -, hg'⟩ := Sink.share_append hw []
        refine answerValue_ending hv ?_ ?_ (hg.append hg') ?_
        · have h₁ := sink.sameTerms_writeAll emptyHeader
          have h₂ := s₁.sameTerms_writeAll k
          rw [hh] at h₁
          rw [hw] at h₂
          exact h₁.trans h₂
        · rw [← hsum, hfull, List.length_append]
        · intro v
          have hkv := (Sink.share_append hw v).2.1
          have hhkv := (Sink.share_append hh (k ++ v)).2.1
          rw [List.append_assoc, ← hhkv, ← hkv, List.length_append]
          omega

/-! ## What every ending has in common -/

/-- A sink that refuses within bytes takes no more of them if others follow. -/
theorem take_share_append {s : Sink} {a : Bytes} (h : s.share a.length < a.length) (b : Bytes) :
    (a ++ b).take (s.share (a ++ b).length) = a.take (s.share a.length) := by
  have heq : s.share (a ++ b).length = s.share a.length := by
    unfold Sink.share at *
    rw [List.length_append]
    split at h <;> rename_i hc
    · rw [if_pos hc, if_pos hc]
    · rw [if_neg hc]
      cases hl : s.limit with
      | none => simp [hl] at h
      | some limit => simp only [hl, hc, if_false] at h ⊢; omega
  rw [heq, List.take_append_of_le_length (Nat.le_of_lt h)]

theorem layout_header (key value : Outcome TapeError Bytes) :
    ∃ rest, layout key value = emptyHeader ++ rest := by
  unfold layout
  split
  · exact ⟨[], by simp⟩
  · exact ⟨_, rfl⟩
  · exact ⟨_, List.append_assoc ..⟩

theorem layout_key (k : Bytes) (value : Outcome TapeError Bytes) :
    ∃ rest, layout (.ok k) value = emptyHeader ++ k ++ rest := by
  rcases value with _ | v
  · exact ⟨[], by simp [layout]⟩
  · exact ⟨v, rfl⟩

/-- However a call ends, the sink gains the part of the layout that it takes. -/
theorem Ending.accepted {sink after : Sink} {key value : Outcome TapeError Bytes}
    {result : Outcome TapeError Unit} (h : Ending sink after key value result) :
    after.accepted =
      sink.accepted ++ (layout key value).take (sink.share (layout key value).length) := by
  cases h with
  | headerRefused hlt hg =>
    obtain ⟨rest, hl⟩ := layout_header key value
    rw [hl, take_share_append hlt, hg.accepted]
  | keyUnencodable hall hk hg | keyFault hall hk hg =>
    subst hk
    rw [layout, hall, List.take_length, hg.accepted]
  | keyRefused hall hk hlt hg =>
    subst hk
    obtain ⟨rest, hl⟩ := layout_key _ value
    rw [hl, take_share_append hlt, hg.accepted]
  | valueUnencodable hk hall hv hg | valueFault hk hall hv hg =>
    subst hk hv
    rw [layout, hall, List.take_length, hg.accepted]
  | valueRefused hk hall hv hlt hg =>
    subst hk hv
    rw [layout, hg.accepted]
  | flushFailed hk hv hall hf hg | done hk hv hall hf hg =>
    subst hk hv
    rw [layout, hall, List.take_length, hg.accepted]

theorem Reachable.ending {t : Topic} {c : SerializerConfig} {s : Serializer κ}
    (h : Reachable ν t c s) (r : Record κ ν) (sink : Sink) :
    Ending sink (s.serialize r sink).sink (s.keyBytes t r.key)
      (Writer.encodeAlone t.valueSchema r.value) (s.serialize r sink).result := by
  have hanswer := Prod.mk.inj (h.serialize_answer r sink)
  rw [hanswer.1, hanswer.2]
  exact answer_ending (isEncoding_keyBytes h.inv r.key)
    (isEncoding_encodeAlone h.inv.valueWriter r.value) sink

/-- Every call of a serializer ends in one of the listed ways, and what it appends is a prefix of
header, key and value. -/
theorem serialize_ending {t : Topic} {c : SerializerConfig} {s : Serializer κ}
    (h : Reachable ν t c s) (r : Record κ ν) (sink : Sink) :
    let key := s.keyBytes t r.key
    let value := Writer.encodeAlone t.valueSchema r.value
    let call := s.serialize r sink
    Ending sink call.sink key value call.result ∧
      ∃ n, call.sink.accepted = sink.accepted ++ (layout key value).take n := by
  have hend := h.ending r sink
  exact ⟨hend, _, hend.accepted⟩

/-- A new key and a value whose second byte meets the limit of a sink that is interrupted and takes
three bytes at a time: the key is kept, and what was appended is cut within the value. -/
theorem serialize_ending_within_value :
    ∃ s : Serializer Typed,
      Serializer.create Typed ⟨"words", .string, .long⟩ ⟨1, 0, true⟩ = .ok s ∧
      let r : Record Typed Typed := ⟨.string "a", .int .int64 5000⟩
      let sink : Sink := { Sink.memory with limit := some 11, chunk := some 3, interrupts := 2 }
      let key := s.keyBytes ⟨"words", .string, .long⟩ r.key
      let value := Writer.encodeAlone Schema.long r.value
      let call := s.serialize r sink
      (Ending sink call.sink key value call.result ∧
        ∃ n, call.sink.accepted = sink.accepted ++ (layout key value).take n) ∧
      layout key value = emptyHeader ++ [2, 97] ++ [144, 78] ∧
      call.result = .error (.error (.io ⟨.writeZero, "tape full"⟩)) ∧
      call.sink.accepted = emptyHeader ++ [2, 97] ++ [144] := by
  refine ⟨_, rfl, ?_, by with_unfolding_all rfl, by with_unfolding_all rfl,
    by with_unfolding_all rfl⟩
  have h : Reachable Typed ⟨"words", .string, .long⟩ ⟨1, 0, true⟩ (_ : Serializer Typed) :=
    .create rfl
  exact serialize_ending h _ _

/-- A topic whose values are decimals in a fixed of one byte. -/
def sumTopic : Topic := ⟨"sums", .string, .decimal (.fixed ⟨none, "D"⟩ 1) 2 0⟩

theorem direct_wide_decimal :
    Writer.direct sumTopic.valueSchema (Typed.bytes [0x7f, 0xff]) =
      .error (.fault (.decimalTooWide 1)) := by
  rfl

/-- A value that cannot be encoded and yet is not reported: two bytes for a decimal of one are a
fault. -/
theorem serialize_faults_on_wide_decimal :
    ∃ s : Serializer Typed,
      Serializer.create Typed sumTopic .default = .ok s ∧
      let r : Record Typed Typed := ⟨.string "a", .bytes [0x7f, 0xff]⟩
      (s.serialize r Sink.memory).result = .error (.fault (.decimalTooWide 1)) := by
  refine ⟨_, rfl, ?_⟩
  have h : Reachable Typed sumTopic .default (_ : Serializer Typed) := .create rfl
  have hkey : Writer.encodeAlone sumTopic.keySchema (Typed.string "a") = .ok [2, 97] := by
    with_unfolding_all rfl
  have hanswer := h.serialize_answer
    (⟨.string "a", .bytes [0x7f, 0xff]⟩ : Record Typed Typed) Sink.memory
  refine (Prod.mk.inj hanswer).1.trans ?_
  -- the cache is empty and there is room, so the bytes of the key are new
  change (answer (Writer.encodeAlone sumTopic.keySchema (Typed.string "a")) _ _).1 = _
  rw [hkey, Writer.encodeAlone_of_ready h.inv.valueWriter, direct_wide_decimal]
  with_unfolding_all rfl

end Serializer
end RecordTape
