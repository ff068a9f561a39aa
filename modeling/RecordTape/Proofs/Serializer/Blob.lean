import RecordTape.Proofs.Serializer.Replay
/-!
# The blob of a record

Where a sink takes everything, a call comes to one of two things: the whole blob of its record is
appended (`Written`), or the record has none, because its key or its value cannot be encoded
(`Stops`). There has to be room for the bytes of a key.
-/

namespace RecordTape.Serializer

variable {t : Topic} {c : SerializerConfig}

/-- A blob holds a record: the header, the bytes of the key and those of the value. Bytes that are
kept from an equal key may differ from the key's own in the signs of zeros. -/
inductive Written (t : Topic) (c : SerializerConfig) (r : Record Json Json) : Bytes → Prop
  | intro {stored key value : Bytes} :
    Writer.encodeAlone t.keySchema r.key = .ok key →
    Writer.encodeAlone t.valueSchema r.value = .ok value →
    SignsApart stored key →
    (t.keySchema.hasFloat = false ∨ c.memoizeKeys = false → stored = key) →
    Written t c r (emptyHeader ++ stored ++ value)

/-- Why a record is not encoded: the first of key and value that has no bytes. -/
inductive Stops (t : Topic) (r : Record Json Json) : Stop TapeError → Prop
  | key {stop : Stop TapeError} :
    Writer.encodeAlone t.keySchema r.key = .error stop → Stops t r stop
  | value {key : Bytes} {stop : Stop TapeError} :
    Writer.encodeAlone t.keySchema r.key = .ok key →
    Writer.encodeAlone t.valueSchema r.value = .error stop → Stops t r stop

theorem Stops.unique {r : Record Json Json} {stop stop' : Stop TapeError} (h : Stops t r stop)
    (h' : Stops t r stop') : stop = stop' := by
  rcases h with hkey | ⟨hkey, hvalue⟩ <;> rcases h' with hkey' | ⟨hkey', hvalue'⟩
  · exact Except.error.inj (hkey.symm.trans hkey')
  · cases hkey.symm.trans hkey'
  · cases hkey.symm.trans hkey'
  · exact Except.error.inj (hvalue.symm.trans hvalue')

theorem own_of_keyBytes {s : Serializer Json} (h : Inv t c s) {key : Json} {stored : Bytes}
    (hstored : s.keyBytes t key = .ok stored) :
    ∃ own, Writer.encodeAlone t.keySchema key = .ok own ∧ SignsApart stored own ∧
      (t.keySchema.hasFloat = false ∨ c.memoizeKeys = false → stored = own) := by
  unfold keyBytes at hstored
  split at hstored
  · rename_i kept hkept
    cases hstored
    split at hkept
    · rename_i hmemo
      obtain ⟨own, hown, hapart, hequal⟩ := own_of_cached? h hkept
      refine ⟨own, hown, hapart, fun hplain => hequal (hplain.resolve_right fun hoff => ?_)⟩
      rw [h.config, hoff] at hmemo
      cases hmemo
    · cases hkept
  · split at hstored
    · cases hstored
    · exact ⟨stored, hstored, .refl _, fun _ => rfl⟩

theorem error_of_keyBytes {s : Serializer Json} (h : Inv t c s) (room : c.Roomy) {key : Json}
    {stop : Stop TapeError} (hstop : s.keyBytes t key = .error stop) :
    Writer.encodeAlone t.keySchema key = .error stop := by
  rw [keyBytes, h.config, Capacity.reserve_of_lt room] at hstop
  split at hstop
  · cases hstop
  · exact hstop

/-- Where a sink takes everything, a call appends the whole blob of its record, or the record has
none. -/
theorem serialize_memory {s : Serializer Json} (h : Reachable Json t c s) (room : c.Roomy)
    (r : Record Json Json) :
    let call := s.serialize r Sink.memory
    (call.result = .ok () ∧ Written t c r call.sink.accepted) ∨
      ∃ stop, call.result = .error stop ∧ Stops t r stop := by
  intro call
  have hall (n : Nat) : ¬ Sink.memory.share n < n := Nat.lt_irrefl n
  have hending := h.ending r Sink.memory
  change Ending _ call.sink _ _ call.result at hending
  generalize hkey : s.keyBytes t r.key = key at hending
  generalize hvalue : Writer.encodeAlone t.valueSchema r.value = value at hending
  generalize call.result = result at hending
  cases hending with
  | headerRefused hlt => exact absurd hlt (hall _)
  | keyUnencodable _ hstop | keyFault _ hstop =>
    exact .inr ⟨_, rfl, .key (error_of_keyBytes h.inv room (hkey.trans hstop))⟩
  | keyRefused _ _ hlt => exact absurd hlt (hall _)
  | valueUnencodable hok _ hstop | valueFault hok _ hstop =>
    obtain ⟨own, hown, -⟩ := own_of_keyBytes h.inv (hkey.trans hok)
    exact .inr ⟨_, rfl, .value hown (hvalue.trans hstop)⟩
  | valueRefused _ _ _ hlt => exact absurd hlt (hall _)
  | flushFailed _ _ _ hfailure => cases hfailure
  | done hok hvok _ _ hgained =>
    obtain ⟨own, hown, hapart, hequal⟩ := own_of_keyBytes h.inv (hkey.trans hok)
    refine .inl ⟨rfl, ?_⟩
    rw [hgained.accepted]
    exact .intro hown (hvalue.trans hvok) hapart hequal

end RecordTape.Serializer
