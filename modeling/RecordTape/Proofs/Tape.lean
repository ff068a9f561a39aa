import RecordTape.Proofs.Serializer.Ending
import RecordTape.Proofs.Writer.ReadBack
/-!
# Reading a tape back

Nothing on a tape says where a record ends. A reader that knows the two schemas finds it all the
same: `readRounds` drops a header, reads a key and reads a value, once for each record. It comes to
the end of what was written with every record recovered exactly if what the data resolved to has the
form of the schemas, and under strictly regular schemas it always does (`readRounds_serializeAll`).
The bytes of a key may be those kept from an earlier record with an equal key, so a record is held
against the key that was `written` for it.
-/

namespace RecordTape

namespace Tape

/-! ## The reader -/

/-- What is read in one round. -/
structure Round where
  header : Bytes
  key : Value
  value : Value

/-- One round: the length of a header, a key and a value. Lengths and counts have no limit. -/
def readRound (t : Topic) : Decoder Round := do
  let header ← Decoder.take headerLength
  let key ← Value.decodeWithin Decoder.anyLength t.keySchema
  let value ← Value.decodeWithin Decoder.anyLength t.valueSchema
  return ⟨header, key, value⟩

/-- As many rounds as asked for. -/
def readRounds (t : Topic) : Nat → Decoder (List Round)
  | 0 => return []
  | n + 1 => do
    let round ← readRound t
    return round :: (← readRounds t n)

variable {κ ν : Type} [Datum κ] [Datum ν]

/-- The round gives the record back: a header of zeros, and what key and value resolve to. -/
structure Recovers (t : Topic) (r : Record κ ν) (round : Round) : Prop where
  header : round.header = List.replicate 8 0
  key : ∃ v, Writer.resolve t.keySchema r.key = .ok v ∧ Value.Alike v round.key
  value : ∃ v, Writer.resolve t.valueSchema r.value = .ok v ∧ Value.Alike v round.value

/-- The bytes are read in one round for each of the records, with nothing left over, and each round
gives its record back. -/
def Recovered (t : Topic) (records : List (Record κ ν)) (b : Bytes) : Prop :=
  ∃ rounds, readRounds t records.length b = .ok rounds [] ∧
    List.Forall₂ (Recovers t) records rounds

/-! ## What is written -/

/-- The key that is written where another was before: the one before if it is equal and keys are
memoized. -/
def keyWritten (memoize : Bool) (before : Option κ) (key : κ) : κ :=
  match before with
  | some k => if memoize && Datum.same k key then k else key
  | none => key

/-- The records with the keys that are written for them. -/
def written (memoize : Bool) : Option κ → List (Record κ ν) → List (Record κ ν)
  | _, [] => []
  | before, r :: rest =>
    let key := keyWritten memoize before r.key
    ⟨key, r.value⟩ :: written memoize (some key) rest

/-- The record stands for the other one: the value is its own, and the key is its own or equal. -/
structure StandsFor (w r : Record κ ν) : Prop where
  value : w.value = r.value
  key : w.key = r.key ∨ Datum.same w.key r.key

/-- The bytes are a header and the direct encodings of key and value. -/
def Holds (t : Topic) (r : Record κ ν) (b : Bytes) : Prop :=
  ∃ kb vb, Writer.direct t.keySchema r.key = .ok kb ∧
    Writer.direct t.valueSchema r.value = .ok vb ∧ b = emptyHeader ++ kb ++ vb

/-- What key and value resolve to has the form of the schemas. -/
structure Formed (t : Topic) (r : Record κ ν) : Prop where
  key : Writer.Formed t.keySchema r.key
  value : Writer.Formed t.valueSchema r.value

/-- The values that key and value stand for are well-formed. -/
structure WellFormed (r : Record κ ν) : Prop where
  key : Datum.WellFormed r.key
  value : Datum.WellFormed r.value

theorem keyWritten_cases (memoize : Bool) (before : Option κ) (key : κ) :
    keyWritten memoize before key = key ∨
      before = some (keyWritten memoize before key) ∧
        Datum.same (keyWritten memoize before key) key := by
  cases before with
  | none => exact .inl rfl
  | some k =>
    by_cases h : memoize && Datum.same k key
    · have hk : keyWritten memoize (some k) key = k := if_pos h
      rw [Bool.and_eq_true] at h
      rw [hk]
      exact .inr ⟨rfl, h.2⟩
    · exact .inl (if_neg h)

omit [Datum ν] in
theorem written_standsFor (memoize : Bool) (before : Option κ) (records : List (Record κ ν)) :
    List.Forall₂ StandsFor (written memoize before records) records := by
  induction records generalizing before with
  | nil => exact .nil
  | cons r rest ih =>
    exact .cons ⟨rfl, (keyWritten_cases memoize before r.key).imp_right And.right⟩ (ih _)

theorem written_wellFormed {memoize : Bool} {before : Option κ} {records : List (Record κ ν)}
    (hbefore : ∀ k, before = some k → Datum.WellFormed k) (h : ∀ r ∈ records, WellFormed r) :
    ∀ w ∈ written memoize before records, WellFormed w := by
  induction records generalizing before with
  | nil =>
    intro w hw
    cases hw
  | cons r rest ih =>
    have hr := h r List.mem_cons_self
    have hkey : Datum.WellFormed (keyWritten memoize before r.key) := by
      rcases keyWritten_cases memoize before r.key with heq | ⟨heq, -⟩
      · rw [heq]
        exact hr.key
      · exact hbefore _ heq
    intro w hw
    rcases List.mem_cons.mp hw with rfl | hw
    · exact ⟨hkey, hr.value⟩
    · refine ih ?_ (fun r' hr' => h r' (List.mem_cons_of_mem _ hr')) w hw
      rintro _ ⟨⟩
      exact hkey

/-! ## Reading records -/

section Regular

variable {strict : Bool} {t : Topic} (hkeys : t.keySchema.regularAlone strict)
  (hvalues : t.valueSchema.regularAlone strict)
include hkeys hvalues

/-- A formed record is read back, whatever follows. -/
theorem readRound_of_formed {r : Record κ ν} {b : Bytes} (hr : Formed t r) (hb : Holds t r b)
    (rest : Bytes) :
    ∃ round, Recovers t r round ∧ readRound t (b ++ rest) = .ok round rest := by
  obtain ⟨kb, vb, hk, hv, rfl⟩ := hb
  obtain ⟨u, hu, hreadKey⟩ := Writer.direct_read hkeys hr.key hk
  obtain ⟨v, hv, hreadValue⟩ := Writer.direct_read hvalues hr.value hv
  obtain ⟨w, hw, hkeyRead⟩ := hreadKey (vb ++ rest)
  obtain ⟨x, hx, hvalueRead⟩ := hreadValue rest
  refine ⟨⟨emptyHeader, w, x⟩, ⟨rfl, ⟨u, hu, hw⟩, ⟨v, hv, hx⟩⟩, ?_⟩
  have hheader : Decoder.take headerLength (emptyHeader ++ (kb ++ (vb ++ rest))) =
      .ok emptyHeader (kb ++ (vb ++ rest)) := Decoder.reads_take emptyHeader _
  rw [List.append_assoc, List.append_assoc, readRound, Decoder.bind_ok hheader,
    Decoder.bind_ok hkeyRead, Decoder.bind_ok hvalueRead]
  rfl

/-- A record that is recovered from any bytes is formed. -/
theorem formed_of_readRound {r : Record κ ν} {round : Round} {b rest : Bytes}
    (hr : WellFormed r) (hrec : Recovers t r round) (hread : readRound t b = .ok round rest) :
    Formed t r := by
  obtain ⟨u, hu, hlikeKey⟩ := hrec.key
  obtain ⟨v, hv, hlikeValue⟩ := hrec.value
  obtain ⟨header, _, -, hread⟩ := Decoder.bind_eq_ok.mp hread
  obtain ⟨w, _, hkey, hread⟩ := Decoder.bind_eq_ok.mp hread
  obtain ⟨x, _, hvalue, ⟨⟩⟩ := Decoder.bind_eq_ok.mp hread
  exact ⟨Writer.formed_of_read hkeys hr.key hu hkey hlikeKey,
    Writer.formed_of_read hvalues hr.value hv hvalue hlikeValue⟩

theorem readRounds_of_formed {records : List (Record κ ν)} {parts : List Bytes}
    (hrecords : ∀ r ∈ records, Formed t r) (h : List.Forall₂ (Holds t) records parts)
    (rest : Bytes) :
    ∃ rounds, readRounds t records.length (parts.flatten ++ rest) = .ok rounds rest ∧
      List.Forall₂ (Recovers t) records rounds := by
  induction h with
  | nil => exact ⟨[], rfl, .nil⟩
  | @cons r part records parts hpart _ ih =>
    obtain ⟨rounds, hreads, hrecs⟩ := ih fun r hr => hrecords r (List.mem_cons_of_mem _ hr)
    obtain ⟨round, hrec, hread⟩ := readRound_of_formed hkeys hvalues
      (hrecords r List.mem_cons_self) hpart (parts.flatten ++ rest)
    refine ⟨round :: rounds, ?_, .cons hrec hrecs⟩
    rw [List.length_cons, readRounds, List.flatten_cons, List.append_assoc, Decoder.bind_ok hread,
      Decoder.bind_ok hreads]
    rfl

theorem formed_of_readRounds {records : List (Record κ ν)} {rounds : List Round}
    {b rest : Bytes} (hdata : ∀ r ∈ records, WellFormed r)
    (hrecs : List.Forall₂ (Recovers t) records rounds)
    (hread : readRounds t records.length b = .ok rounds rest) : ∀ r ∈ records, Formed t r := by
  induction hrecs generalizing b with
  | nil =>
    intro r hr
    cases hr
  | @cons r round records rounds hrec _ ih =>
    rw [List.length_cons, readRounds] at hread
    obtain ⟨_, _, hone, hread⟩ := Decoder.bind_eq_ok.mp hread
    obtain ⟨_, _, hreads, ⟨⟩⟩ := Decoder.bind_eq_ok.mp hread
    intro r' hr'
    rcases List.mem_cons.mp hr' with rfl | hr'
    · exact formed_of_readRound hkeys hvalues (hdata _ List.mem_cons_self) hrec hone
    · exact ih (fun r hr => hdata r (List.mem_cons_of_mem _ hr)) hreads r' hr'

end Regular

/-- Where aliases count as names, every record whose bytes could be had is formed. -/
theorem formed_of_holds {t : Topic} {records : List (Record κ ν)} {parts : List Bytes}
    (hkeys : t.keySchema.regularAlone true) (hvalues : t.valueSchema.regularAlone true)
    (hdata : ∀ r ∈ records, WellFormed r) (h : List.Forall₂ (Holds t) records parts) :
    ∀ r ∈ records, Formed t r := by
  induction h with
  | nil =>
    intro r hr
    cases hr
  | @cons r part records parts hpart _ ih =>
    obtain ⟨_, _, hk, hv, -⟩ := hpart
    have hr := hdata r List.mem_cons_self
    intro r' hr'
    rcases List.mem_cons.mp hr' with rfl | hr'
    · exact ⟨Writer.formed_of_direct hkeys hr.key hk, Writer.formed_of_direct hvalues hr.value hv⟩
    · exact ih (fun r hr => hdata r (List.mem_cons_of_mem _ hr)) r' hr'

end Tape

/-! ## The run -/

namespace Serializer

open Tape (keyWritten written StandsFor Holds Formed WellFormed Recovers Recovered readRounds)

variable {κ ν : Type} [Datum κ] [Datum ν]

/-- Appends records one after the other; the first that fails ends it. -/
def serializeAll (s : Serializer κ) : List (Record κ ν) → Sink →
    Outcome TapeError (Serializer κ × Sink)
  | [], sink => .ok (s, sink)
  | r :: rest, sink =>
    let call := s.serialize r sink
    match call.result with
    | .ok () => serializeAll call.serializer rest call.sink
    | .error stop => .error stop

/-- The key whose bytes are kept. -/
def keptKey (s : Serializer κ) : Option κ := s.cache.map (·.key)

omit [Datum κ] in
theorem keptKey_create {t : Topic} {c : SerializerConfig} {s : Serializer κ}
    (h : Serializer.create κ t c = .ok s) : s.keptKey = none := by
  obtain ⟨_, _, _, _, _, rfl⟩ := create_eq_ok h
  rfl

/-! ### The key of a call -/

/-- Bytes that are found for a key are those of the kept key, which is then the one written. -/
theorem keyWritten_of_found {s : Serializer κ} {key : κ} {bytes : Bytes}
    (h : (if s.config.memoizeKeys then s.cached? key else none) = some bytes) :
    ∃ kept, s.cache = some kept ∧ kept.bytes = bytes ∧
      keyWritten s.config.memoizeKeys s.keptKey key = kept.key := by
  split at h
  · rename_i hmemo
    unfold cached? at h
    split at h
    · rename_i kept hkept
      split at h
      · rename_i hsame
        cases h
        refine ⟨kept, hkept, rfl, ?_⟩
        simp [keyWritten, keptKey, hkept, hmemo, hsame]
      · cases h
    · cases h
  · cases h

theorem keyWritten_of_not_found {s : Serializer κ} {key : κ}
    (h : (if s.config.memoizeKeys then s.cached? key else none) = none) :
    keyWritten s.config.memoizeKeys s.keptKey key = key := by
  unfold cached? at h
  cases hcache : s.cache with
  | none => simp [keyWritten, keptKey, hcache]
  | some kept =>
    rw [hcache] at h
    by_cases hmemo : s.config.memoizeKeys
    · by_cases hsame : Datum.same kept.key key
      · simp [hmemo, hsame] at h
      · simp [keyWritten, keptKey, hcache, hsame]
    · simp [keyWritten, keptKey, hcache, hmemo]

/-- The bytes that a call has for its key are the direct encoding of the key that is written. -/
theorem direct_of_keyBytes {t : Topic} {c : SerializerConfig} {s : Serializer κ} (h : Inv t c s)
    {key : κ} {bytes : Bytes} (hk : s.keyBytes t key = .ok bytes) :
    Writer.direct t.keySchema (keyWritten c.memoizeKeys s.keptKey key) = .ok bytes := by
  rw [← h.config]
  unfold keyBytes at hk
  split at hk
  · rename_i hfound
    cases hk
    obtain ⟨kept, hkept, rfl, heq⟩ := keyWritten_of_found hfound
    rw [heq]
    exact h.cache kept hkept
  · rename_i hfound
    rw [keyWritten_of_not_found hfound]
    split at hk
    · cases hk
    · rw [Writer.encodeAlone_of_ready h.keyWriter] at hk
      exact Outcome.mapError_eq_ok.mp hk

/-- After a key was had, the key that is written for it is kept. -/
theorem keptKey_obtainKey {s s' : Serializer κ} {key : κ} {p : Bytes × KeyEvent}
    (h : s.obtainKey key = (.ok p, s')) :
    s'.keptKey = some (keyWritten s.config.memoizeKeys s.keptKey key) := by
  unfold obtainKey at h
  split at h
  · rename_i hfound
    cases h
    obtain ⟨kept, hkept, -, heq⟩ := keyWritten_of_found hfound
    rw [heq]
    simp [keptKey, hkept]
  · rename_i hfound
    rw [keyWritten_of_not_found hfound]
    split at h
    · cases h
    · cases h
      rfl

omit [Datum κ] in
theorem keptKey_writeValue (s : Serializer κ) (value : ν) (sink : Sink) :
    (s.writeValue value sink).2.1.keptKey = s.keptKey := by
  unfold writeValue
  split
  · rfl
  · split <;> rfl

/-- A call that goes well keeps the key that is written. -/
theorem keptKey_serialize {s : Serializer κ} {r : Record κ ν} {sink : Sink}
    (h : (s.serialize r sink).result = .ok ()) :
    (s.serialize r sink).serializer.keptKey =
      some (keyWritten s.config.memoizeKeys s.keptKey r.key) := by
  rw [serialize_eq] at h ⊢
  replace h : (s.writeRecord r sink).result = .ok () := h
  show (s.writeRecord r sink).serializer.keptKey = _
  unfold writeRecord at h ⊢
  split at h
  · cases h
  · split at h
    · cases h
    · rename_i hobtain
      split at h
      · cases h
      · simp only [keptKey_writeValue]
        exact keptKey_obtainKey hobtain

/-! ### What is on the tape -/

/-- A call that goes well appends a header and the direct encodings of the key that is written and
of the value. -/
theorem serialize_holds {t : Topic} {c : SerializerConfig} {s : Serializer κ} (h : Inv t c s)
    {r : Record κ ν} {sink : Sink} (hok : (s.serialize r sink).result = .ok ()) :
    ∃ b, (s.serialize r sink).sink.accepted = sink.accepted ++ b ∧
      Holds t ⟨keyWritten c.memoizeKeys s.keptKey r.key, r.value⟩ b := by
  have hanswer := (serialize_spec h r sink).1
  have hend := answer_ending (isEncoding_keyBytes h r.key)
    (isEncoding_encodeAlone h.valueWriter r.value) sink
  rw [← hanswer] at hend
  simp only [hok] at hend
  cases hend with
  | @done kb vb hk hv _ _ hgain =>
    rw [Writer.encodeAlone_of_ready h.valueWriter] at hv
    exact ⟨_, hgain.accepted,
      ⟨kb, vb, direct_of_keyBytes h hk, Outcome.mapError_eq_ok.mp hv, rfl⟩⟩

/-- A run that goes well appends the records that are written, one after the other. -/
theorem serializeAll_holds {t : Topic} {c : SerializerConfig} {records : List (Record κ ν)}
    {s s' : Serializer κ} {sink sink' : Sink} (h : Inv t c s)
    (hrun : s.serializeAll records sink = .ok (s', sink')) :
    ∃ parts, sink'.accepted = sink.accepted ++ parts.flatten ∧
      List.Forall₂ (Holds t) (written c.memoizeKeys s.keptKey records) parts := by
  induction records generalizing s sink with
  | nil =>
    cases hrun
    exact ⟨[], by simp, .nil⟩
  | cons r rest ih =>
    rw [serializeAll] at hrun
    split at hrun
    · rename_i hok
      obtain ⟨b, hb, hholds⟩ := serialize_holds h hok
      obtain ⟨parts, hparts, hall⟩ := ih (serialize_spec h r sink).2 hrun
      rw [keptKey_serialize hok, h.config] at hall
      refine ⟨b :: parts, ?_, .cons hholds hall⟩
      rw [hparts, hb, List.flatten_cons, List.append_assoc]
    · cases hrun

/-- A tape is read back exactly if what its records resolve to has the form of the schemas. It is so
on every tape where no field goes by the name of one before it, as an alias either. From an empty
sink, the rounds are as many as the records and use up all that the sink accepted. -/
theorem readRounds_serializeAll {t : Topic} {c : SerializerConfig} {s s' : Serializer κ}
    {sink sink' : Sink} {records : List (Record κ ν)} (hcreate : Serializer.create κ t c = .ok s)
    (hkeys : t.keySchema.regularAlone false) (hvalues : t.valueSchema.regularAlone false)
    (hdata : ∀ r ∈ records, WellFormed r) (hempty : sink.accepted = [])
    (hrun : s.serializeAll records sink = .ok (s', sink')) :
    let stored := written c.memoizeKeys none records
    List.Forall₂ StandsFor stored records ∧
      (Recovered t stored sink'.accepted ↔ ∀ r ∈ stored, Formed t r) ∧
      (t.keySchema.regularAlone true → t.valueSchema.regularAlone true →
        Recovered t stored sink'.accepted) := by
  intro stored
  obtain ⟨parts, hparts, hholds⟩ := serializeAll_holds (create_inv hcreate) hrun
  rw [keptKey_create hcreate] at hholds
  rw [hempty, List.nil_append] at hparts
  have hstored : ∀ r ∈ stored, WellFormed r := Tape.written_wellFormed (by rintro k ⟨⟩) hdata
  have hread : (∀ r ∈ stored, Formed t r) → Recovered t stored sink'.accepted := by
    intro hformed
    have hread := Tape.readRounds_of_formed hkeys hvalues hformed hholds []
    rwa [List.append_nil, ← hparts] at hread
  refine ⟨Tape.written_standsFor _ _ _, ⟨?_, hread⟩, fun hkeys hvalues => hread ?_⟩
  · rintro ⟨rounds, hrounds, hrecs⟩
    exact Tape.formed_of_readRounds hkeys hvalues hstored hrecs hrounds
  · exact Tape.formed_of_holds hkeys hvalues hstored hholds

/-- A topic of chains: a record of a number, its texts and the rest of the chain, if any. -/
def chainTopic : Topic :=
  ⟨"chains", .string, .record ⟨none, "C"⟩
    [⟨"n", [], none, .int⟩, ⟨"w", [], none, .array .string⟩,
      ⟨"t", [], none, .union [.null, .ref ⟨none, "C"⟩]⟩]⟩

/-- Two records with one key. The fields of the second are not in order. -/
def chainRecords : List (Record Json Json) :=
  [⟨.string "a", .object [("n", .int 7), ("w", .array [.string "x", .string ""]),
      ("t", .object [("n", .int (-1)), ("w", .array []), ("t", .null)])]⟩,
    ⟨.string "a", .object [("t", .null), ("w", .array []), ("n", .int 300)]⟩]

/-- Chains are read back, the second by the key kept from the first. -/
theorem readRounds_serializeAll_chains :
    ∃ s s' : Serializer Json, ∃ sink', Serializer.create Json chainTopic .default = .ok s ∧
      s.serializeAll chainRecords Sink.memory = .ok (s', sink') ∧
      Recovered chainTopic (written true none chainRecords) sink'.accepted := by
  obtain ⟨s, hcreate, hok⟩ : ∃ s, Serializer.create Json chainTopic .default = .ok s ∧
      (s.serializeAll chainRecords Sink.memory).isOk := ⟨_, rfl, by decide +kernel⟩
  cases hrun : s.serializeAll chainRecords Sink.memory with
  | error stop => rw [hrun] at hok; cases hok
  | ok after =>
    refine ⟨s, after.1, after.2, hcreate, hrun, ?_⟩
    have hdata : ∀ r ∈ chainRecords, WellFormed r := by
      simp only [chainRecords, List.forall_mem_cons]
      refine ⟨⟨?_, ?_⟩, ⟨?_, ?_⟩, by simp⟩ <;> rintro v ⟨⟩ <;> rfl
    have h := readRounds_serializeAll hcreate (by decide) (by decide) hdata rfl hrun
    exact h.2.2 (by decide) (by decide)

/-! ## Schemas that are not regular -/

/-- The record is written to a tape of its own, and the tape is not read to the end. -/
def Unreadable (t : Topic) (r : Record Json Json) : Prop :=
  ∃ s s' : Serializer Json, ∃ sink', Serializer.create Json t .default = .ok s ∧
    s.serializeAll [r] Sink.memory = .ok (s', sink') ∧
    ∀ rounds rest, readRounds t 1 sink'.accepted ≠ .ok rounds rest

/-- The bytes that are written for one record, and whether they are read to the end. -/
def tapeOf (t : Topic) (r : Record Json Json) : Option (Bytes × Bool) :=
  match Serializer.create Json t .default with
  | .error _ => none
  | .ok s =>
    match s.serializeAll [r] Sink.memory with
    | .error _ => none
    | .ok (_, sink) =>
      match readRounds t 1 sink.accepted with
      | .ok .. => some (sink.accepted, true)
      | .error .. => some (sink.accepted, false)

theorem unreadable_of_tapeOf {t : Topic} {r : Record Json Json} {b : Bytes}
    (h : tapeOf t r = some (b, false)) : Unreadable t r := by
  unfold tapeOf at h
  split at h
  · cases h
  · rename_i s hcreate
    split at h
    · cases h
    · rename_i s' sink hrun
      split at h
      · cases h
      · rename_i hread
        refine ⟨s, s', sink, hcreate, hrun, fun rounds rest hok => ?_⟩
        rw [hread] at hok
        cases hok

/-- A topic whose values are records of a fixed of four bytes and one of three that goes by the name
of the first as well. -/
def aliasTopic : Topic :=
  ⟨"fixed", .string, .record ⟨none, "R"⟩
    [⟨"f", [], none, .fixed ⟨none, "F"⟩ 4⟩, ⟨"g", ["f"], none, .fixed ⟨none, "G"⟩ 3⟩]⟩

/-- A value is held against the fixed of three bytes that took its name, and written as it is. -/
theorem unreadable_taken_alias :
    Unreadable aliasTopic ⟨.string "a", .object [("f", .string "abc"), ("g", .string "xyz")]⟩ := by
  have h : tapeOf aliasTopic ⟨.string "a", .object [("f", .string "abc"), ("g", .string "xyz")]⟩ =
      some (emptyHeader ++ [2, 97] ++ [97, 98, 99, 120, 121, 122], false) := by decide +kernel
  exact unreadable_of_tapeOf h

/-- A topic whose values are records with a name of no namespace inside a namespace. It is one `X`
where the value is resolved, and the other where it is written and read. -/
def scopeTopic : Topic :=
  ⟨"scopes", .string, .record ⟨none, "R"⟩
    [⟨"f", [], none, .enum ⟨none, "X"⟩ ["A", "B"] none⟩,
      ⟨"g", [], none, .record ⟨some "a", "S"⟩
        [⟨"x", [], none, .enum ⟨some "a", "X"⟩ ["A"] (some "A")⟩,
          ⟨"h", [], none, .record ⟨none, "T"⟩ [⟨"j", [], none, .ref ⟨none, "X"⟩⟩]⟩]⟩]⟩

/-- The second of two symbols is written for an enumeration of one. -/
theorem unreadable_two_scopes :
    Unreadable scopeTopic ⟨.string "a", .object [("f", .string "A"),
      ("g", .object [("x", .string "A"), ("h", .object [("j", .string "B")])])]⟩ := by
  have h : tapeOf scopeTopic ⟨.string "a", .object [("f", .string "A"),
      ("g", .object [("x", .string "A"), ("h", .object [("j", .string "B")])])]⟩ =
      some (emptyHeader ++ [2, 97] ++ [0, 0, 2], false) := by decide +kernel
  exact unreadable_of_tapeOf h

end Serializer
end RecordTape
