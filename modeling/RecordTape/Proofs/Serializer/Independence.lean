import RecordTape.Proofs.Serializer.AnyOrder
import RecordTape.Proofs.Writer.Mapless
/-!
# History and tuning do not show

Two serializers of one topic answer a record in the same way and do the same to its sink, however
they are tuned and whatever they were used for before. Two things are needed for that. Keys that are
equal must be encoded alike, or else kept bytes differ from fresh ones; and there must be room for
the bytes of a key, because setting aside `2^63` bytes or more is a fault
(`serialize_needs_room`).

If the maps of the record come up in another order for the second serializer, its sink takes the
same number of bytes in the same writes, and what it takes differs in that order alone. Under
schemas without maps it does not differ.
-/

namespace RecordTape

/-- Equal keys are encoded to the same bytes, or neither is encoded. -/
def Topic.KeysEncodeAlike (κ : Type) [Datum κ] (t : Topic) : Prop :=
  ∀ a b : κ, Datum.same a b → ∀ bytes,
    Writer.encodeAlone t.keySchema a = .ok bytes ↔ Writer.encodeAlone t.keySchema b = .ok bytes

namespace Serializer

open Writer (UpToOrder)

variable {κ ν : Type} [Datum κ] [Datum ν]

/-- Bytes that are kept for a key are those a new writer gives for it. -/
theorem encodeAlone_of_cached? {t : Topic} (alike : t.KeysEncodeAlike κ) {c : SerializerConfig}
    {s : Serializer κ} (h : Inv t c s) {key : κ} {bytes : Bytes}
    (hc : s.cached? key = some bytes) : Writer.encodeAlone t.keySchema key = .ok bytes := by
  unfold cached? at hc
  cases hs : s.cache with
  | none => simp [hs] at hc
  | some k =>
    simp only [hs] at hc
    split at hc
    · rename_i same
      cases hc
      refine (alike _ _ same _).1 ?_
      rw [Writer.encodeAlone_of_ready h.keyWriter, h.cache k hs]
      rfl
    · cases hc

/-- With room for it, the bytes a call has for its key are those a new writer gives for it, whether
they were kept or not. -/
theorem keyBytes_eq_encodeAlone {t : Topic} (alike : t.KeysEncodeAlike κ) {c : SerializerConfig}
    (room : c.Roomy) {s : Serializer κ} (h : Inv t c s) (key : κ) :
    s.keyBytes t key = Writer.encodeAlone t.keySchema key := by
  unfold keyBytes
  rw [h.config, Capacity.reserve_of_lt room]
  cases hc : if c.memoizeKeys then s.cached? key else none with
  | none => rfl
  | some bytes =>
    split at hc
    · exact (encodeAlone_of_cached? alike h hc).symm
    · cases hc

/-- A record on two occasions. Its key has the same bytes on both of them, or none on either; its
value is the same datum, with maps that may come up in other orders. -/
structure Recurs (t : Topic) (r r' : Record κ (Arranged ν)) : Prop where
  key : ∀ bytes, Writer.encodeAlone t.keySchema r.key = .ok bytes ↔
    Writer.encodeAlone t.keySchema r'.key = .ok bytes
  value : r'.value.datum = r.value.datum

/-- Outcomes with the same bytes, if any, are the same but for an error. -/
theorem upToOrder_of_ok_iff {schema : Schema} {x y : Outcome TapeError Bytes} (hx : IsEncoding x)
    (hy : IsEncoding y) (h : ∀ bytes, x = .ok bytes ↔ y = .ok bytes) : UpToOrder schema x y := by
  rcases x with (e | f) | bytes
  · rcases y with (e' | f) | bytes
    · obtain ⟨e, rfl⟩ := hx _ rfl
      obtain ⟨e', rfl⟩ := hy _ rfl
      exact .refused e e'
    · exact .fault_right _ f
    · cases (h bytes).mpr rfl
  · exact .fault_left f _
  · rw [(h bytes).mp rfl]
    exact .same _

/-- The answer to a record and what is done to the sink depend on the topic, the record and the sink
alone: not on the tuning, and not on the calls before. If the record comes again with its maps in
another order, the answer differs in that order alone, and not at all if the key is encoded to the
same and the schema of the values has no maps. -/
theorem serialize_independent {t : Topic} (alike : t.KeysEncodeAlike κ)
    {c₁ c₂ : SerializerConfig} (room₁ : c₁.Roomy) (room₂ : c₂.Roomy) {s₁ s₂ : Serializer κ}
    (h₁ : Reachable (Arranged ν) t c₁ s₁) (h₂ : Reachable (Arranged ν) t c₂ s₂)
    (r : Record κ (Arranged ν)) (sink : Sink) :
    ((s₁.serialize r sink).result = (s₂.serialize r sink).result ∧
      (s₁.serialize r sink).sink = (s₂.serialize r sink).sink) ∧
    ∀ r', Recurs t r r' →
      let key := Writer.encodeAlone t.keySchema r.key
      let value := Writer.encodeAlone t.valueSchema r.value
      let key' := Writer.encodeAlone t.keySchema r'.key
      let value' := Writer.encodeAlone t.valueSchema r'.value
      UpToOrder t.keySchema key key' ∧ UpToOrder t.valueSchema value value' ∧
        AnsweredAlike sink (layout key value) (layout key' value')
          ((s₁.serialize r sink).result, (s₁.serialize r sink).sink)
          ((s₂.serialize r' sink).result, (s₂.serialize r' sink).sink) ∧
        (key = key' → t.valueSchema.isMapless →
          (s₁.serialize r sink).result = (s₂.serialize r' sink).result ∧
            (s₁.serialize r sink).sink = (s₂.serialize r' sink).sink) := by
  have hanswer₁ := h₁.serialize_answer r sink
  have hanswer₂ (r' : Record κ (Arranged ν)) := h₂.serialize_answer r' sink
  rw [keyBytes_eq_encodeAlone alike room₁ h₁.inv] at hanswer₁
  simp only [keyBytes_eq_encodeAlone alike room₂ h₂.inv] at hanswer₂
  refine ⟨Prod.mk.inj (hanswer₁.trans (hanswer₂ r).symm), fun r' hr => ?_⟩
  have hkey (a : κ) : IsEncoding (Writer.encodeAlone t.keySchema a) :=
    isEncoding_encodeAlone h₁.inv.keyWriter a
  have hvalue (a : Arranged ν) : IsEncoding (Writer.encodeAlone t.valueSchema a) :=
    isEncoding_encodeAlone h₁.inv.valueWriter a
  have hkeys : UpToOrder t.keySchema (Writer.encodeAlone t.keySchema r.key)
      (Writer.encodeAlone t.keySchema r'.key) := upToOrder_of_ok_iff (hkey _) (hkey _) hr.key
  have hvalues : UpToOrder t.valueSchema (Writer.encodeAlone t.valueSchema r.value)
      (Writer.encodeAlone t.valueSchema r'.value) := Writer.encodeAlone_upToOrder hr.value
  refine ⟨hkeys, hvalues, ?_, fun hsame hmapless => ?_⟩
  · rw [hanswer₁, hanswer₂ r']
    exact answer_upToOrder hkeys hvalues (hkey _) (hkey _) (hvalue _) (hvalue _) sink
  · rw [hsame, Writer.encodeAlone_mapless hmapless, ← hr.value,
      ← Writer.encodeAlone_mapless hmapless] at hanswer₁
    exact Prod.mk.inj (hanswer₁.trans (hanswer₂ r').symm)

/-! ## Texts as keys -/

/-- A topic with texts for keys and longs for values. -/
def wordTopic : Topic := ⟨"words", .string, .long⟩

theorem isString_of_encodeAlone {a : Json} {bytes : Bytes}
    (h : Writer.encodeAlone .string a = .ok bytes) : ∃ s, a = .string s := by
  have hw : Writer.create .string = .ok ⟨.string, Fingerprint.header "\"string\"", 0⟩ := rfl
  rw [Writer.encodeAlone_of_ready (Writer.ready_of_create hw)] at h
  cases a with
  | string s => exact ⟨s, rfl⟩
  | null => cases h
  | bool b => cases h
  | double x => cases h
  | int n =>
    simp only [Writer.direct, Writer.resolve, Datum.toValue, Json.toValue] at h
    by_cases hn : n < int64Bound
    · simp only [if_pos hn] at h; cases h
    · simp only [if_neg hn] at h; cases h
  | array items =>
    simp only [Writer.direct, Writer.resolve, Datum.toValue, Json.toValue] at h
    cases hi : Json.itemsToValues items <;> rw [hi] at h <;> cases h
  | object members =>
    simp only [Writer.direct, Writer.resolve, Datum.toValue, Json.toValue] at h
    cases hi : Json.membersToEntries members <;> rw [hi] at h <;> cases h

/-- Two texts are equal only if they are the same, and no other value is a key that is a text. -/
theorem keysEncodeAlike_string (name : String) (valueSchema : Schema) :
    (Topic.mk name .string valueSchema).KeysEncodeAlike Json := by
  intro a b same bytes
  constructor
  · intro h
    obtain ⟨s, rfl⟩ := isString_of_encodeAlone h
    cases b <;> simp_all [Datum.same, Json.same]
  · intro h
    obtain ⟨s, rfl⟩ := isString_of_encodeAlone h
    cases a <;> simp_all [Datum.same, Json.same]

/-- A topic with texts for keys and maps of longs for values. -/
def scoreTopic : Topic := ⟨"scores", .string, .map .long⟩

/-- A record with two entries in its map. -/
def scoreRecord (order : Arrangement) : Record Json (Arranged Json) :=
  ⟨.string "a", ⟨.object [("x", .int 1), ("y", .int 2)], order, .listed⟩⟩

/-- A serializer that keeps its keys and failed at a value before, and a new one with the smallest
buffer that keeps none, do the same to a sink that is interrupted, takes one byte, then some bytes
at a time, and refuses within the value. With the entries the other way round the sink has another
byte at the end. -/
theorem serialize_independent_after_failure :
    ∃ s₁ s₂ : Serializer Json,
      Serializer.create Json scoreTopic .default = .ok s₁ ∧
      Serializer.create Json scoreTopic ⟨1, 0, false⟩ = .ok s₂ ∧
      let failing : Record Json (Arranged Json) := ⟨.string "a", ⟨.int 5, .listed, .listed⟩⟩
      let r := scoreRecord .listed
      let r' := scoreRecord .backwards
      let narrow : Sink :=
        { Sink.memory with limit := some 13, chunk := some 5, interrupts := 2, turns := [⟨0, 1⟩] }
      let s₁ := (s₁.serialize failing Sink.memory).serializer
      ((s₁.serialize r narrow).result = (s₂.serialize r narrow).result ∧
        (s₁.serialize r narrow).sink = (s₂.serialize r narrow).sink) ∧
      AnsweredAlike narrow
        (layout (Writer.encodeAlone .string r.key) (Writer.encodeAlone (.map .long) r.value))
        (layout (Writer.encodeAlone .string r'.key) (Writer.encodeAlone (.map .long) r'.value))
        ((s₁.serialize r narrow).result, (s₁.serialize r narrow).sink)
        ((s₂.serialize r' narrow).result, (s₂.serialize r' narrow).sink) ∧
      (s₁.serialize r narrow).sink.accepted = emptyHeader ++ [2, 97, 4, 2, 120] ∧
      (s₂.serialize r' narrow).sink.accepted = emptyHeader ++ [2, 97, 4, 2, 121] := by
  refine ⟨_, _, rfl, rfl, ?_⟩
  have h₁ : Reachable (Arranged Json) scoreTopic .default (_ : Serializer Json) :=
    .serialize (⟨.string "a", ⟨.int 5, .listed, .listed⟩⟩ : Record Json (Arranged Json)) Sink.memory
      (.create rfl)
  have h₂ : Reachable (Arranged Json) scoreTopic ⟨1, 0, false⟩ (_ : Serializer Json) := .create rfl
  intro failing r r' narrow s₁
  obtain ⟨hsame, hagain⟩ := serialize_independent (keysEncodeAlike_string "scores" (.map .long))
    (by decide) (by decide) h₁ h₂ r narrow
  exact ⟨hsame, (hagain r' ⟨fun _ => Iff.rfl, rfl⟩).2.2.1, by decide +kernel, by decide +kernel⟩

/-- Room that cannot be set aside shows: a new key is then a fault. -/
theorem serialize_needs_room :
    ∃ s₁ s₂ : Serializer Json,
      Serializer.create Json wordTopic .default = .ok s₁ ∧
      Serializer.create Json wordTopic ⟨2048, Capacity.limit, true⟩ = .ok s₂ ∧
      wordTopic.KeysEncodeAlike Json ∧
      let r : Record Json Json := ⟨.string "a", .int 1⟩
      (s₁.serialize r Sink.memory).result = .ok () ∧
        (s₂.serialize r Sink.memory).result = .error (.fault (.noRoom Capacity.limit)) :=
  ⟨_, _, rfl, rfl, keysEncodeAlike_string _ _, by with_unfolding_all rfl, by with_unfolding_all rfl⟩

end Serializer
end RecordTape
