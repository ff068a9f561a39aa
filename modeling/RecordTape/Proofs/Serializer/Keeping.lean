import RecordTape.Proofs.Serializer.Course
import RecordTape.Proofs.Serializer.Independence
/-!
# The kept key

Between two calls nothing is kept, or a key with all the bytes of its direct encoding. Whether a
call replaces it is decided before the key goes to the sink: the header was taken, the kept key does
not stand for the new one, and the new one was encoded. Nothing that fails later takes the new key
back.
-/

namespace RecordTape.Serializer

variable {κ ν : Type} [Datum κ] [Datum ν]

namespace Course

variable {t : Topic} {c : SerializerConfig} {s : Serializer κ} {key : κ} {sink : Sink}
  {result : Outcome TapeError Unit} {ledger : Ledger κ}

/-- The kept key after a call. -/
theorem cache (h : Course t c s key sink result ledger) :
    ledger.cache =
      if sink.takes emptyHeader && !s.holdsKey key then
        match newKeyBytes t c key with
        | .ok bytes => some ⟨key, bytes⟩
        | .error _ => s.cache
      else s.cache := by
  cases h with
  | headerRefused hrefused => rw [hrefused]; rfl
  | keyFailed htakes hkey =>
    cases hkey with
    | failed hheld hbytes => rw [htakes, hheld, hbytes]; rfl
  | keyHad htakes hkey =>
    cases hkey with
    | kept hheld _ => rw [hheld, Bool.not_true, Bool.and_false]; rfl
    | new hheld hbytes => rw [htakes, hheld, hbytes]; rfl

/-- How often a call asks the key writer. -/
theorem keyCalls (h : Course t c s key sink result ledger) :
    ledger.keyCalls =
      s.keyWriter.calls + if sink.takes emptyHeader && !s.holdsKey key then keyAsks c else 0 := by
  cases h with
  | headerRefused hrefused => rw [hrefused]; rfl
  | keyFailed htakes hkey =>
    cases hkey with
    | failed hheld hbytes => rw [htakes, hheld]; rfl
  | keyHad htakes hkey =>
    cases hkey with
    | kept hheld _ => rw [hheld, Bool.not_true, Bool.and_false]; rfl
    | new hheld hbytes => rw [htakes, hheld, keyAsks_of_no_fault t key (by simp [hbytes])]; rfl

end Course

theorem holdsKey_of_not_memoized {c : SerializerConfig} {t : Topic} {s : Serializer κ}
    (h : Inv t c s) (hoff : c.memoizeKeys = false) (key : κ) : s.holdsKey key = false := by
  rw [holdsKey, h.config, hoff]
  rfl

/-- A reachable state keeps no key, or one with its direct encoding. A call changes nothing about it
if the header is refused, the kept key stands for the record's, or that one has no bytes; otherwise
the record's key is kept with its own, whatever becomes of the rest of the call. Without memoizing
every call that passes the header encodes its key and keeps it. -/
theorem kept_key {t : Topic} {c : SerializerConfig} {s : Serializer κ} (h : Reachable ν t c s) :
    (∀ kept, s.cache = some kept → Writer.encodeAlone t.keySchema kept.key = .ok kept.bytes) ∧
      ∀ (r : Record κ ν) (sink : Sink),
        let after := (s.serialize r sink).serializer
        (sink.takes emptyHeader = false → after.cache = s.cache) ∧
        (s.holdsKey r.key → after.cache = s.cache) ∧
        (∀ stop, newKeyBytes t c r.key = .error stop → after.cache = s.cache) ∧
        (∀ bytes, sink.takes emptyHeader → s.holdsKey r.key = false →
          newKeyBytes t c r.key = .ok bytes → after.cache = some ⟨r.key, bytes⟩) ∧
        (c.memoizeKeys = false → sink.takes emptyHeader →
          after.keyWriter.calls = s.keyWriter.calls + keyAsks c ∧
          ∀ bytes, newKeyBytes t c r.key = .ok bytes → after.cache = some ⟨r.key, bytes⟩) := by
  have hinv := h.inv
  refine ⟨fun kept hkept => ?_, ?_⟩
  · rw [Writer.encodeAlone_of_ready hinv.keyWriter, hinv.cache kept hkept]
    rfl
  · intro r sink after
    have hcourse := serialize_course hinv r sink
    have hcache : after.cache = _ := hcourse.cache
    have hcalls : after.keyWriter.calls = _ := hcourse.keyCalls
    refine ⟨fun hrefused => ?_, fun hheld => ?_, fun stop hfailed => ?_,
      fun bytes htakes hheld hnew => ?_, fun hoff htakes => ?_⟩
    · rw [hcache, hrefused]; rfl
    · rw [hcache, hheld, Bool.not_true, Bool.and_false]; rfl
    · rw [hcache, hfailed]; exact ite_self _
    · rw [hcache, htakes, hheld, hnew]; rfl
    · have hheld := holdsKey_of_not_memoized hinv hoff r.key
      refine ⟨?_, fun bytes hnew => ?_⟩
      · rw [hcalls, htakes, hheld]; rfl
      · rw [hcache, htakes, hheld, hnew]; rfl

/-- A new key whose value cannot be encoded is kept all the same, in the place of the one before. -/
theorem kept_key_of_failed_value :
    ∃ s : Serializer Json,
      Serializer.create Json wordTopic .default = .ok s ∧
      let before := (s.serialize (⟨.string "a", .int 1⟩ : Record Json Json) Sink.memory).serializer
      let r : Record Json Json := ⟨.string "b", .string "five"⟩
      before.cache = some ⟨.string "a", [2, 97]⟩ ∧
        (∀ kept, before.cache = some kept →
          Writer.encodeAlone wordTopic.keySchema kept.key = .ok kept.bytes) ∧
        (before.serialize r Sink.memory).result.isOk = false ∧
        (before.serialize r Sink.memory).serializer.cache = some ⟨.string "b", [2, 98]⟩ := by
  refine ⟨_, rfl, by with_unfolding_all rfl, ?_⟩
  have h : Reachable Json wordTopic .default (_ : Serializer Json) :=
    .serialize (⟨.string "a", .int 1⟩ : Record Json Json) Sink.memory (.create rfl)
  obtain ⟨hkept, hcall⟩ := kept_key h
  refine ⟨hkept, by decide +kernel, ?_⟩
  obtain ⟨-, -, -, hreplaced, -⟩ := hcall ⟨.string "b", .string "five"⟩ Sink.memory
  exact hreplaced [2, 98] (by decide) (by with_unfolding_all rfl) (by with_unfolding_all rfl)

end RecordTape.Serializer
