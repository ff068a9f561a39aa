import Mathlib.Data.List.Chain
import RecordTape.Proofs.Serializer.Counters
import RecordTape.Proofs.Value.Equality
/-!
# How often a key is encoded

A serializer that keeps keys encodes a key exactly where it differs from the one before it
(`key_economy`). The kept key is not the one before but the one at which the present run of equal
keys has begun; that they are told apart from a new key alike takes an equality that is symmetric
and transitive, and no more (`LastKept`). Calls whose header is refused or whose key cannot be
encoded leave the kept key as it is and drop out of the count.
-/

namespace RecordTape.Serializer

variable {κ ν : Type} [Datum κ] [Datum ν]

/-! ## Runs of equal keys -/

/-- The key at this position is the first, or it is not equal to the one before it. -/
def beginsRun (keys : List κ) : Nat → Bool
  | 0 => true
  | i + 1 => !(keys[i]?.any fun a => keys[i + 1]?.any fun b => Datum.same a b)

/-- The number of positions at which a run of equal keys begins. -/
def runs (keys : List κ) : Nat := (List.range keys.length).countP (beginsRun keys)

/-- A last key begins a run if it is not equal to the one that was last. -/
theorem runs_concat (keys : List κ) (key : κ) :
    runs (keys ++ [key]) =
      runs keys + if keys.getLast?.any fun last => Datum.same last key then 0 else 1 := by
  have hbefore : (List.range keys.length).countP (beginsRun (keys ++ [key])) = runs keys := by
    refine List.countP_congr fun i hi => ?_
    have hi : i < keys.length := List.mem_range.mp hi
    cases i with
    | zero => rfl
    | succ i =>
      rw [beginsRun, beginsRun, List.getElem?_append_left hi, List.getElem?_append_left (by omega)]
  have hlast : beginsRun (keys ++ [key]) keys.length =
      !(keys.getLast?.any fun last => Datum.same last key) := by
    cases hlength : keys.length with
    | zero => rw [List.length_eq_zero_iff.mp hlength]; rfl
    | succ n =>
      have hkey : (keys ++ [key])[n + 1]? = some key := by
        rw [← hlength, List.getElem?_concat_length]
      have hprevious : (keys ++ [key])[n]? = keys.getLast? := by
        rw [List.getElem?_append_left (by omega), List.getLast?_eq_getElem?, hlength,
          Nat.add_sub_cancel]
      rw [beginsRun, hkey, hprevious]
      rfl
  rw [runs, List.length_append, List.length_singleton, List.range_succ, List.countP_append,
    hbefore, List.countP_singleton, hlast]
  cases keys.getLast?.any fun last => Datum.same last key <;> rfl

/-! ## One call -/

namespace Attempt

/-- How often the call asks the key writer. -/
def keyCalls (a : Attempt κ ν) : Nat :=
  a.call.serializer.keyWriter.calls - a.before.keyWriter.calls

/-- How many keys the call counts as encoded. -/
def encodings (a : Attempt κ ν) : Nat :=
  a.call.serializer.stats.keyEncodings - a.before.stats.keyEncodings

/-- How many uses of the kept key the call counts. -/
def hits (a : Attempt κ ν) : Nat :=
  a.call.serializer.stats.keyCacheHits - a.before.stats.keyCacheHits

/-- The record's key has an encoding, and the sink took the header. -/
def encodable (t : Topic) (a : Attempt κ ν) : Bool :=
  a.sink.takes emptyHeader && (Writer.encodeAlone t.keySchema a.record.key).isOk

/-- These are the bytes for the key in what the sink accepted: it has a part of the record with
them behind the header, and the whole record if the call succeeded. -/
structure Segment (t : Topic) (a : Attempt κ ν) (k : Bytes) : Prop where
  part : a.bytes <+: layout (.ok k) (Writer.encodeAlone t.valueSchema a.record.value)
  whole : a.succeeded → ∃ v, Writer.encodeAlone t.valueSchema a.record.value = .ok v ∧
    a.bytes = emptyHeader ++ k ++ v

end Attempt

section Step

variable {t : Topic} {c : SerializerConfig} {a : Attempt κ ν}

/-- What a call with bytes for its key adds to the counts of keys, and the key it leaves. -/
structure KeyCounted (t : Topic) (a : Attempt κ ν) : Prop where
  keyCalls : a.keyCalls = if a.before.holdsKey a.record.key then 0 else 1
  encodings : a.encodings = if a.before.holdsKey a.record.key then 0 else 1
  hits : a.hits = if a.before.holdsKey a.record.key then 1 else 0
  cache : ∃ kept, a.call.serializer.cache = some kept ∧
    a.before.keyBytes t a.record.key = .ok kept.bytes ∧
    (if a.before.holdsKey a.record.key then a.before.cache = some kept else kept.key = a.record.key)

/-- The course of a call, with what is kept count of written out. -/
theorem attempt_course (h : Inv t c a.before) :
    ∃ (result : Outcome TapeError Unit) (ledger : Ledger κ),
      Course t c a.before a.record.key a.sink result ledger ∧ a.call.result = result ∧
      a.call.serializer.cache = ledger.cache ∧
      a.keyCalls = ledger.keyCalls - a.before.keyWriter.calls ∧
      a.encodings = ledger.encodings - a.before.stats.keyEncodings ∧
      a.hits = ledger.hits - a.before.stats.keyCacheHits :=
  ⟨_, _, serialize_course h a.record a.sink, rfl, rfl, rfl, rfl, rfl⟩

theorem counted_of_hasKey (h : Inv t c a.before) (hkey : a.hasKey t) : KeyCounted t a := by
  obtain ⟨result, ledger, hcourse, -, hcache, hkeyCalls, hencodings, hhits⟩ := attempt_course h
  cases hcourse with
  | headerRefused hrefused =>
    rw [(hasKey_of_refused (t := t) hrefused).1] at hkey
    cases hkey
  | @keyFailed stop _ htakes hcourse =>
    cases hcourse with
    | failed hheld hbytes =>
      have hnone : a.before.keyBytes t a.record.key = .error stop := by
        rw [keyBytes_of_not_holdsKey t hheld, h.config]
        exact hbytes
      rw [(without_key hnone).1] at hkey
      cases hkey
  | @keyHad bytes _ _ _ htakes hcourse =>
    have hbytes := hcourse.keyBytes h
    cases hcourse with
    | @kept kept hheld hbefore =>
      refine ⟨?_, ?_, ?_, kept, hcache.trans hbefore, hbytes, ?_⟩
      · rw [hkeyCalls, if_pos hheld]; exact Nat.sub_self _
      · rw [hencodings, if_pos hheld]; exact Nat.sub_self _
      · rw [hhits, if_pos hheld]; exact Nat.add_sub_cancel_left ..
      · rw [if_pos hheld]; exact hbefore
    | new hheld hnew =>
      have hheld' : ¬a.before.holdsKey a.record.key := by rw [hheld]; exact Bool.false_ne_true
      refine ⟨?_, ?_, ?_, ⟨a.record.key, bytes⟩, hcache, hbytes, ?_⟩
      · rw [hkeyCalls, if_neg hheld']; exact Nat.add_sub_cancel_left ..
      · rw [hencodings, if_neg hheld']; exact Nat.add_sub_cancel_left ..
      · rw [hhits, if_neg hheld']; exact Nat.sub_self _
      · rw [if_neg hheld']

/-- A call without bytes for its key counts no key and leaves the kept one. -/
theorem uncounted_of_not_hasKey (h : Inv t c a.before) (hkey : a.hasKey t = false) :
    a.call.serializer.cache = a.before.cache ∧ a.encodings = 0 := by
  obtain ⟨result, ledger, hcourse, -, hcache, -, hencodings, -⟩ := attempt_course h
  rw [hcache, hencodings]
  cases hcourse with
  | headerRefused hrefused => exact ⟨rfl, Nat.sub_self _⟩
  | keyFailed htakes hcourse =>
    cases hcourse with
    | failed hheld hbytes => exact ⟨rfl, Nat.sub_self _⟩
  | keyHad htakes hcourse =>
    rw [(with_key (hcourse.keyBytes h) htakes).1] at hkey
    cases hkey

/-- A key that can be encoded has bytes, if no fault has ended the call. -/
theorem hasKey_of_encodable (h : Inv t c a.before) (hret : a.returned) (henc : a.encodable t) :
    a.hasKey t := by
  rw [Attempt.encodable, Bool.and_eq_true] at henc
  obtain ⟨htakes, hok⟩ := henc
  obtain ⟨result, ledger, hcourse, hresult, -⟩ := attempt_course h
  cases hcourse with
  | headerRefused hrefused =>
    rw [hrefused] at htakes
    cases htakes
  | keyHad _ hcourse => exact (with_key (hcourse.keyBytes h) htakes).1
  | @keyFailed stop _ _ hcourse =>
    cases hcourse with
    | failed hheld hbytes =>
      by_cases hroom : c.Roomy
      · rw [newKeyBytes, Capacity.reserve_of_lt hroom] at hbytes
        simp only at hbytes
        rw [hbytes] at hok
        cases hok
      · -- without room there is a fault, and the call did not return
        rw [newKeyBytes, Capacity.reserve_of_le (Nat.not_lt.mp hroom)] at hbytes
        cases hbytes
        rw [Attempt.returned, hresult] at hret
        cases hret

/-- A key that cannot be encoded may have bytes, if it is equal to the kept one. Then it counts as a
use of that. -/
theorem uncounted_of_not_encodable (h : Inv t c a.before) (henc : a.encodable t = false) :
    a.call.serializer.cache = a.before.cache ∧ a.encodings = 0 := by
  by_cases hkey : a.hasKey t
  · obtain ⟨-, hencodings, -, kept, hcache, hbytes, hkept⟩ := counted_of_hasKey h hkey
    by_cases hheld : a.before.holdsKey a.record.key
    · rw [if_pos hheld] at hencodings hkept
      exact ⟨hcache.trans hkept.symm, hencodings⟩
    · rw [Bool.not_eq_true] at hheld
      rw [Attempt.hasKey, Bool.and_eq_true] at hkey
      rw [Attempt.encodable, hkey.1, Bool.true_and] at henc
      rw [keyBytes_of_not_holdsKey t hheld, h.config, newKeyBytes] at hbytes
      by_cases hroom : c.Roomy
      · rw [Capacity.reserve_of_lt hroom] at hbytes
        simp only at hbytes
        rw [hbytes] at henc
        cases henc
      · rw [Capacity.reserve_of_le (Nat.not_lt.mp hroom)] at hbytes
        cases hbytes
  · exact uncounted_of_not_hasKey h (by simpa using hkey)

/-- The counters after a call are those before it and what it has added. -/
theorem added (h : Inv t c a.before) :
    a.call.serializer.keyWriter.calls = a.before.keyWriter.calls + a.keyCalls ∧
      a.call.serializer.stats.keyEncodings = a.before.stats.keyEncodings + a.encodings ∧
      a.call.serializer.stats.keyCacheHits = a.before.stats.keyCacheHits + a.hits := by
  have hcourse := serialize_course h a.record a.sink
  have hle : a.before.keyWriter.calls ≤ a.call.serializer.keyWriter.calls ∧
      a.before.stats.keyEncodings ≤ a.call.serializer.stats.keyEncodings ∧
      a.before.stats.keyCacheHits ≤ a.call.serializer.stats.keyCacheHits := by
    change a.before.ledger.keyCalls ≤ a.call.serializer.ledger.keyCalls ∧
      a.before.ledger.encodings ≤ a.call.serializer.ledger.encodings ∧
      a.before.ledger.hits ≤ a.call.serializer.ledger.hits
    unfold Attempt.call
    generalize (a.before.serialize a.record a.sink).serializer.ledger = ledger at hcourse ⊢
    generalize (a.before.serialize a.record a.sink).result = result at hcourse
    cases hcourse with
    | headerRefused _ => exact ⟨Nat.le_refl _, Nat.le_refl _, Nat.le_refl _⟩
    | keyFailed _ hcourse =>
      cases hcourse with
      | failed _ _ => exact ⟨Nat.le_add_right .., Nat.le_refl _, Nat.le_refl _⟩
    | keyHad _ hcourse =>
      cases hcourse with
      | kept _ _ => exact ⟨Nat.le_refl _, Nat.le_refl _, Nat.le_succ _⟩
      | new _ _ => exact ⟨Nat.le_succ _, Nat.le_succ _, Nat.le_refl _⟩
  unfold Attempt.keyCalls Attempt.encodings Attempt.hits
  omega

/-- The bytes for the key stand behind the header in what the sink accepted. -/
theorem segment_of_keyBytes (h : Reachable ν t c a.before) {k : Bytes}
    (hk : a.before.keyBytes t a.record.key = .ok k) : a.Segment t k := by
  have hend := h.ending a.record a.sink
  rw [hk] at hend
  have hbytes := congrArg (List.drop a.sink.accepted.length) hend.accepted
  rw [List.drop_left] at hbytes
  change a.bytes = _ at hbytes
  refine ⟨hbytes ▸ List.take_prefix _ _, fun hok => ?_⟩
  unfold Attempt.succeeded Attempt.call at hok
  generalize (a.before.serialize a.record a.sink).result = result at hok hend
  cases hend with
  | @done k v hk' hv hall _ _ =>
    cases hk'
    refine ⟨v, hv, ?_⟩
    rw [hbytes, hv, layout, hall, List.take_length]
  | _ => cases hok

end Step

/-! ## Runs of calls -/

/-- The key that is kept after calls stands for the last of their keys: it is this key or equal to
it, and the sink of that call has its bytes. -/
def LastKept (t : Topic) (cache : Option (CachedKey κ)) (last : Option (Attempt κ ν)) : Prop :=
  match last with
  | none => cache = none
  | some a => ∃ kept, cache = some kept ∧ a.Segment t kept.bytes ∧
    (kept.key = a.record.key ∨ Datum.same kept.key a.record.key)

/-- Calls ask for a key and count it as encoded where a run of equal keys begins, and count a use of
the kept key everywhere else; and where two keys in a row are equal the sinks have the same bytes
for them. -/
structure Economical (t : Topic) (calls : List (Attempt κ ν)) : Prop where
  keyCalls : (calls.map Attempt.keyCalls).sum = runs (calls.map (·.record.key))
  encodings : (calls.map Attempt.encodings).sum = runs (calls.map (·.record.key))
  hits : (calls.map Attempt.hits).sum + runs (calls.map (·.record.key)) = calls.length
  segments : calls.IsChain fun a b =>
    Datum.same a.record.key b.record.key → ∃ k, a.Segment t k ∧ b.Segment t k

/-- A choice of calls that have bytes for their keys, the others of which leave the kept key and
the count of keys encoded as they are. -/
structure Selects (t : Topic) (c : SerializerConfig) (p : Attempt κ ν → Bool) : Prop where
  hasKey : ∀ a, Inv t c a.before → a.returned → p a → a.hasKey t
  rest : ∀ a, Inv t c a.before → p a = false →
    a.call.serializer.cache = a.before.cache ∧ a.encodings = 0

section Runs

variable {t : Topic} {c : SerializerConfig} {calls : List (Attempt κ ν)} {s : Serializer κ}

theorem selects_hasKey : Selects t c (Attempt.hasKey t : Attempt κ ν → Bool) where
  hasKey _ _ _ hkey := hkey
  rest _ hinv hkey := uncounted_of_not_hasKey hinv hkey

theorem selects_encodable : Selects t c (Attempt.encodable t : Attempt κ ν → Bool) where
  hasKey _ hinv hret henc := hasKey_of_encodable hinv hret henc
  rest _ hinv henc := uncounted_of_not_encodable hinv henc

/-- The kept key stands for a new one exactly if the last key equals it. -/
theorem holdsKey_of_lastKept {last : Option (Attempt κ ν)} (hequal : PartialEquivalence κ)
    (hmemo : s.config.memoizeKeys) (h : LastKept t s.cache last) (key : κ) :
    s.holdsKey key = (last.map (·.record.key)).any fun k => Datum.same k key := by
  rw [holdsKey, hmemo, Bool.true_and]
  cases last with
  | none => rw [show s.cache = none from h]; rfl
  | some a =>
    obtain ⟨kept, hcache, -, hkept⟩ := h
    rw [hcache]
    change Datum.same kept.key key = Datum.same a.record.key key
    rcases hkept with heq | hsame
    · rw [heq]
    · exact hequal.same_congr hsame key

/-- A call with bytes for its key leaves a key that stands for its own. -/
theorem lastKept_of_hasKey {a : Attempt κ ν} (h : Reachable ν t c a.before)
    (hkey : a.hasKey t) : LastKept t a.call.serializer.cache (some a) := by
  obtain ⟨-, -, -, kept, hcache, hbytes, hkept⟩ := counted_of_hasKey h.inv hkey
  refine ⟨kept, hcache, segment_of_keyBytes h hbytes, ?_⟩
  by_cases hheld : a.before.holdsKey a.record.key
  · rw [if_pos hheld] at hkept
    obtain ⟨kept', hcache', hsame⟩ := cache_of_holdsKey hheld
    rw [hkept] at hcache'
    cases hcache'
    exact .inr hsame
  · rw [if_neg hheld] at hkept
    exact .inl hkept

/-- One call more, made while the kept key stands for the last of the keys. -/
theorem Economical.concat {b : Attempt κ ν} (h : Economical t calls)
    (hequal : PartialEquivalence κ) (hmemo : b.before.config.memoizeKeys)
    (hlast : LastKept t b.before.cache calls.getLast?) (hb : Reachable ν t c b.before)
    (hkey : b.hasKey t) : Economical t (calls ++ [b]) := by
  obtain ⟨hkeyCalls, hencodings, hhits, kept, hcache, hbytes, hkept⟩ :=
    counted_of_hasKey hb.inv hkey
  have hheld := holdsKey_of_lastKept hequal hmemo hlast b.record.key
  have hruns : runs ((calls ++ [b]).map (·.record.key)) =
      runs (calls.map (·.record.key)) + if b.before.holdsKey b.record.key then 0 else 1 := by
    rw [List.map_append, List.map_singleton, runs_concat, List.getLast?_map, hheld]
  refine ⟨?_, ?_, ?_, ?_⟩
  · rw [hruns, List.map_append, List.sum_append, List.map_singleton, List.sum_singleton,
      h.keyCalls, hkeyCalls]
  · rw [hruns, List.map_append, List.sum_append, List.map_singleton, List.sum_singleton,
      h.encodings, hencodings]
  · have hsum := h.hits
    rw [hruns, List.map_append, List.sum_append, List.map_singleton, List.sum_singleton, hhits,
      List.length_append, List.length_singleton]
    split <;> omega
  · refine List.isChain_append.mpr ⟨h.segments, List.isChain_singleton b, ?_⟩
    intro a ha b' hb' hsame
    obtain rfl : b = b' := Option.some.inj hb'
    rw [Option.mem_def] at ha
    rw [ha] at hlast hheld
    obtain ⟨kept', hcache', hsegment, -⟩ := hlast
    have hheld : b.before.holdsKey b.record.key := hheld.trans hsame
    rw [if_pos hheld, hcache'] at hkept
    cases hkept
    exact ⟨kept.bytes, hsegment, segment_of_keyBytes hb hbytes⟩

/-- The run lemma, for every such choice of calls. -/
theorem economical_of_selects {p : Attempt κ ν → Bool} (hequal : PartialEquivalence κ)
    (hmemo : c.memoizeKeys) (hp : Selects t c p) (h : Run ν t c calls s) :
    LastKept t s.cache (calls.filter p).getLast? ∧ Economical t (calls.filter p) ∧
      s.stats.keyEncodings = runs ((calls.filter p).map (·.record.key)) := by
  induction h with
  | create hcreate =>
    obtain ⟨k, v, e, -, -, rfl⟩ := create_eq_ok hcreate
    exact ⟨rfl, ⟨rfl, rfl, rfl, List.isChain_nil⟩, rfl⟩
  | @call calls s r sink hrun hret ih =>
    obtain ⟨hlast, hcalls, hcount⟩ := ih
    obtain ⟨b, hb⟩ : ∃ b : Attempt κ ν, b = ⟨s, r, sink⟩ := ⟨_, rfl⟩
    obtain ⟨rfl, hafter⟩ : b.before = s ∧ (s.serialize r sink).serializer = b.call.serializer := by
      subst hb; exact ⟨rfl, rfl⟩
    have hreach : Reachable ν t c b.before := hrun.reachable
    rw [← hb] at hret
    rw [← hb, hafter, List.filter_append, (added hreach.inv).2.1]
    by_cases hpb : p b
    · have hkey := hp.hasKey b hreach.inv hret hpb
      have hmemo' : b.before.config.memoizeKeys := hreach.inv.config ▸ hmemo
      have hmore := hcalls.concat hequal hmemo' hlast hreach hkey
      rw [List.filter_cons_of_pos hpb, List.filter_nil, List.getLast?_concat]
      refine ⟨lastKept_of_hasKey hreach hkey, hmore, ?_⟩
      rw [hcount, ← hmore.encodings, ← hcalls.encodings, List.map_append, List.sum_append,
        List.map_singleton, List.sum_singleton]
    · obtain ⟨hcache, hnone⟩ := hp.rest b hreach.inv (by simpa using hpb)
      rw [List.filter_cons_of_neg hpb, List.filter_nil, List.append_nil, hcache, hnone,
        Nat.add_zero]
      exact ⟨hlast, hcalls, hcount⟩

/-- The counters after a run are the sums of what its calls have added. -/
theorem totals_eq_sums (h : Run ν t c calls s) :
    s.keyWriter.calls = (calls.map Attempt.keyCalls).sum ∧
      s.stats.keyEncodings = (calls.map Attempt.encodings).sum ∧
      s.stats.keyCacheHits = (calls.map Attempt.hits).sum := by
  induction h with
  | create hcreate =>
    obtain ⟨k, v, e, hk, -, rfl⟩ := create_eq_ok hcreate
    exact ⟨calls_of_forSchema hk, rfl, rfl⟩
  | @call calls s r sink hrun _ ih =>
    obtain ⟨hkeyCalls, hencodings, hhits⟩ := ih
    obtain ⟨hkeyCalls', hencodings', hhits'⟩ :=
      added (a := (⟨s, r, sink⟩ : Attempt κ ν)) hrun.reachable.inv
    simp only [List.map_append, List.sum_append, List.map_singleton, List.sum_singleton,
      ← hkeyCalls, ← hencodings, ← hhits]
    exact ⟨hkeyCalls', hencodings', hhits'⟩

/-- A serializer that keeps keys encodes a key exactly where it differs from the one before it, and
writes the same bytes for equal keys in a row. If calls fail, this is so among those whose key can
be encoded, and among those that had bytes for their key. -/
theorem key_economy (hequal : PartialEquivalence κ) (hmemo : c.memoizeKeys)
    (h : Run ν t c calls s) :
    ((∀ a ∈ calls, a.succeeded) →
      Economical t calls ∧
        s.keyWriter.calls = runs (calls.map (·.record.key)) ∧
        s.stats.keyEncodings = runs (calls.map (·.record.key)) ∧
        s.stats.keyCacheHits + runs (calls.map (·.record.key)) = calls.length) ∧
      (∀ p, p = Attempt.encodable t ∨ p = Attempt.hasKey t →
        Economical t (calls.filter p) ∧
          s.stats.keyEncodings = runs ((calls.filter p).map (·.record.key))) ∧
      s.stats.keyCacheHits + runs ((calls.filter (Attempt.hasKey t)).map (·.record.key)) =
        (calls.filter (Attempt.hasKey t)).length := by
  have hchosen (p : Attempt κ ν → Bool) (hp : p = Attempt.encodable t ∨ p = Attempt.hasKey t) :
      Economical t (calls.filter p) ∧
        s.stats.keyEncodings = runs ((calls.filter p).map (·.record.key)) := by
    rcases hp with rfl | rfl
    · exact (economical_of_selects hequal hmemo selects_encodable h).2
    · exact (economical_of_selects hequal hmemo selects_hasKey h).2
  refine ⟨fun hok => ?_, hchosen, ?_⟩
  · have hall : calls.filter (Attempt.hasKey t) = calls :=
      List.filter_eq_self.mpr fun a ha =>
        hasKey_of_reachesValue (reachesValue_of_succeeded (h.inv a ha) (hok a ha))
    obtain ⟨heconomical, -⟩ := hchosen _ (.inr rfl)
    rw [hall] at heconomical
    obtain ⟨hkeyCalls, hencodings, hhits⟩ := totals_eq_sums h
    rw [hkeyCalls, hencodings, hhits]
    exact ⟨heconomical, heconomical.keyCalls, heconomical.encodings, heconomical.hits⟩
  · rw [← (hchosen _ (.inr rfl)).2, (reconciled_counts h).2.2.1, List.countP_eq_length_filter]

end Runs

def readingTopic : Topic := ⟨"readings", .double, .long⟩

def reading (bits : Nat) (value : Int) : Record Typed Typed :=
  ⟨.double (.ofBits bits), .int .int64 value⟩

/-- Four records that go through, with not-a-number for the first two keys and the two zeros for the
others: three keys are encoded. Then a refused header, a key that is no number, and a zero again
with a value that is no number: of these calls only the last counts. -/
theorem key_economy_not_a_number :
    ∃ (calls more : List (Attempt Typed Typed)) (s s' : Serializer Typed),
      Run Typed readingTopic .default calls s ∧
        Run Typed readingTopic .default (calls ++ more) s' ∧
        (calls.map Attempt.succeeded = [true, true, true, true] ∧ Economical readingTopic calls ∧
          s.stats.keyEncodings = 3 ∧ s.stats.keyCacheHits = 1) ∧
        more.map (Attempt.encodable readingTopic) = [false, false, true] ∧
        Economical readingTopic ((calls ++ more).filter (Attempt.encodable readingTopic)) ∧
        s'.stats.keyEncodings = 3 ∧ s'.stats.keyCacheHits = 2 ∧ s'.keyWriter.calls = 4 := by
  have h₁ : Run Typed readingTopic .default _ (_ : Serializer Typed) :=
    .call (reading 0x7ff8000000000000 1) Sink.memory (.create rfl) (by decide +kernel)
  have h₂ : Run Typed readingTopic .default _ (_ : Serializer Typed) :=
    .call (reading 0x7ff8000000000000 2) Sink.memory h₁ (by decide +kernel)
  have h₃ : Run Typed readingTopic .default _ (_ : Serializer Typed) :=
    .call (reading 0 3) Sink.memory h₂ (by decide +kernel)
  have h₄ : Run Typed readingTopic .default _ (_ : Serializer Typed) :=
    .call (reading 0x8000000000000000 4) Sink.memory h₃ (by decide +kernel)
  have h₅ : Run Typed readingTopic .default _ (_ : Serializer Typed) :=
    .call (reading 1 5) { Sink.memory with limit := some 4 } h₄ (by decide +kernel)
  have h₆ : Run Typed readingTopic .default _ (_ : Serializer Typed) :=
    .call ⟨.string "x", .int .int64 6⟩ Sink.memory h₅ (by decide +kernel)
  have h₇ : Run Typed readingTopic .default _ (_ : Serializer Typed) :=
    .call ⟨.double (.ofBits 0), .string "seven"⟩ Sink.memory h₆ (by decide +kernel)
  obtain ⟨hall, -⟩ := key_economy Typed.partialEquivalence rfl h₄
  obtain ⟨-, hchosen, -⟩ := key_economy Typed.partialEquivalence rfl h₇
  obtain ⟨heconomical, -⟩ := hall (by decide +kernel)
  refine ⟨_, [_, _, _], _, _, h₄, h₇, ⟨by decide +kernel, heconomical, ?_, ?_⟩, ?_,
    (hchosen _ (.inl rfl)).1, ?_⟩
  all_goals decide +kernel

end RecordTape.Serializer
