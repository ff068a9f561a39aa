import RecordTape.Proofs.Serializer.Ending
import RecordTape.Proofs.Serializer.Independence
import RecordTape.Proofs.Writer.EqualData
/-!
# Replayed keys

The bytes kept for a key are written for every later key that is equal to it. For JSON keys they are
those of that key but for the signs of zeros, and the same outright where the schema is for no
floating-point number (`replayed_signsApart`): history and tuning do not show in such a topic
(`Topic.keysEncodeAlike_of_floatless`). The signs do get lost. The two zeros are equal, so that a
negative one is written as the positive one before it (`replayed_zero`).

Keys are `Json` here, with their maps in the order of the text whenever they are encoded. Under a
key schema for maps the bytes that are kept may be in another order than a fresh encoding on the
same key; what the two have in common then is `Writer.encodeAlone_upToOrder`.
-/

namespace RecordTape

/-- Equal JSON values take forms and are encoded alike: equality of numbers forgets the signs of
zeros and nothing else that is written. -/
theorem Writer.encodeAlone_of_same (schema : Schema) {a b : Json} (h : Datum.same a b) :
    Outcome.Agree Value.oneZero (resolve schema a) (resolve schema b) ∧
      Outcome.Alike SignsApart (encodeAlone schema a) (encodeAlone schema b) ∧
      (schema.hasFloat = false → encodeAlone schema a = encodeAlone schema b) := by
  have hagree : Outcome.Agree Value.oneZero (Datum.toValue a) (Datum.toValue b) :=
    Json.toValue_agree h
  have hloose : true = false → schema.hasFloat = false := nofun
  exact ⟨resolve_agree hloose hagree, encodeAlone_alike schema hagree,
    fun hs => encodeAlone_congr hs hagree⟩

/-- Without floating-point numbers equal JSON keys are encoded to the same bytes. -/
theorem Topic.keysEncodeAlike_of_floatless {t : Topic} (hs : t.keySchema.hasFloat = false) :
    t.KeysEncodeAlike Json := by
  intro a b hsame bytes
  rw [(Writer.encodeAlone_of_same t.keySchema hsame).2.2 hs]

namespace Serializer

variable {κ ν : Type} [Datum κ] [Datum ν]

/-- Bytes that are found for a key are the direct encoding of a key that is equal to it. -/
theorem exists_of_cached? {t : Topic} {c : SerializerConfig} {s : Serializer κ} (h : Inv t c s)
    {key : κ} {bytes : Bytes} (hc : s.cached? key = some bytes) :
    ∃ k, Datum.same k key ∧ Writer.encodeAlone t.keySchema k = .ok bytes := by
  unfold cached? at hc
  cases hs : s.cache with
  | none => rw [hs] at hc; cases hc
  | some k =>
    rw [hs] at hc
    simp only at hc
    split at hc <;> cases hc
    refine ⟨k.key, ‹_›, ?_⟩
    rw [Writer.encodeAlone_of_ready h.keyWriter, h.cache k hs]
    rfl

/-- Bytes that are found for a JSON key are its own but for the signs of zeros. -/
theorem own_of_cached? {t : Topic} {c : SerializerConfig} {s : Serializer Json} (h : Inv t c s)
    {key : Json} {kept : Bytes} (hkept : s.cached? key = some kept) :
    ∃ own, Writer.encodeAlone t.keySchema key = .ok own ∧ SignsApart kept own ∧
      (t.keySchema.hasFloat = false → kept = own) := by
  obtain ⟨k, hsame, hk⟩ := exists_of_cached? h hkept
  obtain ⟨-, halike, hequal⟩ := Writer.encodeAlone_of_same t.keySchema hsame
  rw [hk] at halike hequal
  generalize Writer.encodeAlone t.keySchema key = own at halike hequal ⊢
  cases halike with
  | ok hapart => exact ⟨_, rfl, hapart, fun hs => Except.ok.inj (hequal hs)⟩

/-- Equal JSON keys, with their maps in one order, take forms that differ in the signs of zeros at
most, and are encoded so. The bytes that are written again for a key are those of an equal one, and
those it has by itself but for these signs. -/
theorem replayed_signsApart :
    (∀ (schema : Schema) (a b : Json), Datum.same a b →
      Outcome.Agree Value.oneZero (Writer.resolve schema a) (Writer.resolve schema b) ∧
        Outcome.Alike SignsApart (Writer.encodeAlone schema a) (Writer.encodeAlone schema b) ∧
        (schema.hasFloat = false → Writer.encodeAlone schema a = Writer.encodeAlone schema b)) ∧
      ∀ (t : Topic) (c : SerializerConfig) (s : Serializer Json), Reachable ν t c s →
        c.memoizeKeys → ∀ (r : Record Json ν) (sink : Sink) (kept : Bytes),
        s.cached? r.key = some kept →
        (∃ key, Datum.same key r.key ∧ Writer.encodeAlone t.keySchema key = .ok kept) ∧
          (∃ fresh, Writer.encodeAlone t.keySchema r.key = .ok fresh ∧ SignsApart kept fresh ∧
            (t.keySchema.hasFloat = false → kept = fresh)) ∧
          ∃ n, (s.serialize r sink).sink.accepted = sink.accepted ++
            (layout (.ok kept) (Writer.encodeAlone t.valueSchema r.value)).take n := by
  refine ⟨fun schema a b h => Writer.encodeAlone_of_same schema h, ?_⟩
  intro t c s h hmemo r sink kept hkept
  refine ⟨exists_of_cached? h.inv hkept, own_of_cached? h.inv hkept, ?_⟩
  have hbytes : s.keyBytes t r.key = .ok kept := by
    rw [keyBytes, h.inv.config, if_pos hmemo, hkept]
  rw [← hbytes]
  exact ⟨_, (h.ending r sink).accepted⟩

def zeroTopic : Topic := ⟨"zeros", .double, .long⟩

def signedZero (negative : Bool) : Json := .double (.ofMagnitude negative 0)

theorem encodeAlone_signedZero (negative : Bool) :
    Writer.encodeAlone .double (signedZero negative) =
      .ok [0, 0, 0, 0, 0, 0, 0, if negative then 128 else 0] := by
  rw [Writer.encodeAlone_of_ready (Writer.ready_of_create rfl)]
  cases negative <;> rfl

/-- A zero of either sign as a double, as a member that no field takes, and as the key after one of
the other sign. -/
theorem replayed_signsApart_zero :
    ∃ s : Serializer Json, Serializer.create Json zeroTopic .default = .ok s ∧
      let counted (negative : Bool) : Json := .object [("n", .int 1), ("x", signedZero negative)]
      let count : Schema := .record ⟨none, "Count"⟩ [⟨"n", [], none, .long⟩]
      let first : Record Json Json := ⟨signedZero false, .int 1⟩
      Outcome.Alike SignsApart (Writer.encodeAlone .double (signedZero false))
          (Writer.encodeAlone .double (signedZero true)) ∧
        Writer.encodeAlone count (counted false) = Writer.encodeAlone count (counted true) ∧
        (s.serialize first Sink.memory).serializer.cached? (signedZero true) =
          some [0, 0, 0, 0, 0, 0, 0, 0] ∧
        SignsApart [0, 0, 0, 0, 0, 0, 0, 0] [0, 0, 0, 0, 0, 0, 0, 128] := by
  obtain ⟨s, hs⟩ : ∃ s, Serializer.create Json zeroTopic .default = .ok s := ⟨_, rfl⟩
  obtain ⟨hequal, hreplayed⟩ := replayed_signsApart (ν := Json)
  have hcached : (s.serialize (⟨signedZero false, .int 1⟩ : Record Json Json)
      Sink.memory).serializer.cached? (signedZero true) = some [0, 0, 0, 0, 0, 0, 0, 0] := by
    cases hs
    decide +kernel
  obtain ⟨-, ⟨fresh, hfresh, hapart, -⟩, -⟩ := hreplayed zeroTopic .default _
    (.serialize _ _ (.create hs)) rfl ⟨signedZero true, .int 1⟩ Sink.memory _ hcached
  refine ⟨s, hs, (hequal .double _ _ (by decide +kernel)).2.1,
    (hequal _ _ _ (by decide +kernel)).2.2 rfl, hcached, ?_⟩
  cases (encodeAlone_signedZero true).symm.trans hfresh
  exact hapart

/-- A negative zero is found as the positive zero before it, and that one's bytes are written. -/
theorem replayed_zero :
    ∃ s : Serializer Json, Serializer.create Json zeroTopic .default = .ok s ∧
      let first : Record Json Json := ⟨signedZero false, .int 1⟩
      let second : Record Json Json := ⟨signedZero true, .int 1⟩
      let call := (s.serialize first Sink.memory).serializer.serialize second Sink.memory
      Datum.same first.key second.key ∧ call.event = some .hit ∧ call.result.isOk ∧
        call.sink.accepted = emptyHeader ++ [0, 0, 0, 0, 0, 0, 0, 0] ++ [2] ∧
        Writer.encodeAlone zeroTopic.keySchema second.key = .ok [0, 0, 0, 0, 0, 0, 0, 128] := by
  refine ⟨_, rfl, by decide +kernel, by decide +kernel, by decide +kernel, by decide +kernel, ?_⟩
  exact encodeAlone_signedZero true

end Serializer
end RecordTape
