import RecordTape.Proofs.Value.AnyOrderWriting
import RecordTape.Proofs.Writer.Direct
/-!
# Encodings in any order

A datum that holds maps has as many encodings as there are orders for the entries. They are the
encodings of one value but for these orders, of one length, and if the datum is refused in one order
it is refused in all, though perhaps for another part of it (`encodeAlone_upToOrder`). A datum with
a hazard, on which the program may end, can come to that in one order and be refused in another.
-/

namespace RecordTape

open Outcome (InStep Tied)

namespace Writer

/-- Bytes of one value but for the order of maps. -/
structure SameButOrder (schema : Schema) (x y : Bytes) : Prop where
  values : ∃ v w, Rearranged v w ∧ encodeValue schema v = (x, none) ∧
    encodeValue schema w = (y, none)
  length : x.length = y.length

/-- What comes of one datum in two orders. -/
inductive UpToOrder (schema : Schema) : Outcome TapeError Bytes → Outcome TapeError Bytes → Prop
  | same (x : Outcome TapeError Bytes) : UpToOrder schema x x
  | encoded {x y : Bytes} : SameButOrder schema x y → UpToOrder schema (.ok x) (.ok y)
  | refused (e e' : EncodingFailure) :
    UpToOrder schema (.error (.error (.encoding e))) (.error (.error (.encoding e')))
  | fault_left (f : Fault) (y : Outcome TapeError Bytes) :
    UpToOrder schema (.error (.fault f)) y
  | fault_right (x : Outcome TapeError Bytes) (f : Fault) :
    UpToOrder schema x (.error (.fault f))

theorem UpToOrder.of_inStep {schema : Schema} {x y : Outcome EncodingFailure Bytes}
    (h : InStep (SameButOrder schema) x y) :
    UpToOrder schema (x.mapError .encoding) (y.mapError .encoding) := by
  obtain ⟨_, _, rfl, rfl, hxy⟩ | ⟨e, e', rfl, rfl⟩ | ⟨f, rfl⟩ | ⟨f, rfl⟩ := h.ends
  · exact .encoded hxy
  · exact .refused e e'
  · exact .fault_left f _
  · exact .fault_right _ f

variable {schema : Schema}

theorem resolveValue_inStep (schema : Schema) {v w : Value} (h : Rearranged v w) :
    InStep Rearranged (resolveValue schema v) (resolveValue schema w) := by
  unfold resolveValue
  cases schema.names with
  | error e => exact .error _ _
  | ok names => exact (Value.fit_inStep _ h names schema.ns schema).mapError _

/-- The bytes of a resolved value, if nothing stops it. -/
def encoded (schema : Schema) (v : Value) : Outcome EncodingFailure Bytes :=
  match encodeValue schema v with
  | (bytes, none) => .ok bytes
  | (_, some stop) => .error stop

theorem encoded_eq_ok {v : Value} {bytes : Bytes} (h : encoded schema v = .ok bytes) :
    encodeValue schema v = (bytes, none) := by
  unfold encoded at h
  generalize encodeValue schema v = p at h
  obtain ⟨bytes, _ | stop⟩ := p <;> cases h
  rfl

theorem encoded_lengths (schema : Schema) {v w : Value} (h : Rearranged v w) :
    InStep (fun x y => x.length = y.length) (encoded schema v) (encoded schema w) := by
  unfold encoded encodeValue
  cases schema.names with
  | error e => exact .error _ _
  | ok names =>
    have hissues := Value.issues_inStep (.ofDepth (Value.defaultDepth names schema)) h names
      schema.ns schema
    have hencode := Value.encode_inStep h names schema.ns schema
    simp only
    generalize v.issues (.ofDepth (Value.defaultDepth names schema)) names schema.ns schema =
      is at hissues
    generalize w.issues (.ofDepth (Value.defaultDepth names schema)) names schema.ns schema =
      js at hissues
    cases hissues with
    | error f _ => exact .left _ rfl
    | left _ _ => exact .left _ rfl
    | right _ _ => exact .right _ rfl
    | @ok is js hnil =>
      rcases is with _ | ⟨i, is⟩ <;> rcases js with _ | ⟨j, js⟩
      · generalize v.encode names schema.ns schema = a at hencode
        generalize w.encode names schema.ns schema = b at hencode
        obtain ⟨x, _ | stop⟩ := a <;> obtain ⟨y, _ | stop'⟩ := b
        · cases hencode with
          | ok hlen => exact .ok hlen
        · cases hencode with
          | right _ hstop => exact .right _ ((Stop.isFault_map _ stop').trans hstop)
        · cases hencode with
          | left _ hstop => exact .left _ ((Stop.isFault_map _ stop).trans hstop)
        · exact .error _ _
      · cases hnil.mp rfl
      · cases hnil.mpr rfl
      · exact .error _ _

/-- A value that lists its maps in another order is encoded to the same but for that. -/
theorem encoded_inStep (schema : Schema) {v w : Value} (h : Rearranged v w) :
    InStep (SameButOrder schema) (encoded schema v) (encoded schema w) :=
  (encoded_lengths schema h).given.imp fun _ _ ⟨hx, hy, hlen⟩ =>
    ⟨⟨v, w, h, encoded_eq_ok hx, encoded_eq_ok hy⟩, hlen⟩

section Arranged

variable {α : Type} [Datum α] {d e : Arranged α}

/-- A datum is resolved to the same value but for the order of maps, on whatever occasion. -/
theorem resolve_inStep (h : e.datum = d.datum) :
    InStep Rearranged (resolve schema d) (resolve schema e) := by
  unfold resolve
  rw [Arranged.toValue_eq, Arranged.toValue_eq, h]
  cases Datum.toValue d.datum with
  | error e => exact .error _ _
  | ok v =>
    have hgiven : Rearranged (d.given.arrange v) (e.given.arrange v) :=
      (d.given.rearranges v).symm.trans (e.given.rearranges v)
    refine (resolveValue_inStep schema hgiven).bind fun r r' hr => ?_
    have hmade : Rearranged (d.resolved.arrange r) (e.resolved.arrange r') :=
      (d.resolved.rearranges r).symm.trans (hr.trans (e.resolved.rearranges r'))
    have hcheck := Value.checkNarrowing_ok_iff hgiven hmade
    simp only [Value.containsLong_eq hgiven, Arranged.arrangement_eq]
    split
    · generalize (d.given.arrange v).checkNarrowing _ = x at hcheck
      generalize (e.given.arrange v).checkNarrowing _ = y at hcheck
      rcases x with n | ⟨⟩ <;> rcases y with m | ⟨⟩
      · exact .error _ _
      · cases hcheck.mpr rfl
      · cases hcheck.mp rfl
      · exact .ok hmade
    · exact .ok hmade

theorem direct_inStep (h : e.datum = d.datum) :
    InStep (SameButOrder schema) (direct schema d) (direct schema e) :=
  (resolve_inStep h).bind fun _ _ hvw => encoded_inStep schema hvw

/-- A ready writer encodes a datum to the same but for the order of maps, or refuses it, on whatever
occasion. -/
theorem encode_upToOrder {w : Writer} (hw : Ready schema w) (h : e.datum = d.datum) :
    UpToOrder schema (w.encode d).1 (w.encode e).1 := by
  rw [encode_ready hw, encode_ready hw]
  exact .of_inStep (direct_inStep h)

/-- So does a new writer, unless none is made for the schema. -/
theorem encodeAlone_upToOrder (h : e.datum = d.datum) :
    UpToOrder schema (encodeAlone schema d) (encodeAlone schema e) := by
  unfold encodeAlone
  cases hcreate : create schema with
  | error stop => exact .same _
  | ok w => exact encode_upToOrder (ready_of_create hcreate) h

end Arranged

end Writer
end RecordTape
