import RecordTape.Proofs.Value.Rearranged
import RecordTape.Proofs.Value.Shown
import RecordTape.Proofs.Value.Valid
import RecordTape.Proofs.Writer.Direct
/-!
# Reading direct encodings back

The direct encoding of a datum under a regular schema is read back as what the datum resolves to,
if that has the form of the schema (`Formed`), and only then. Resolution gives the form but for the
sizes of fixed bytes. Validation gives the sizes where aliases count as names; where they do not, it
may hold a field against the schema of another.
-/

namespace RecordTape

namespace Datum

/-- The value that the datum stands for, if any, is well-formed. -/
def WellFormed {α : Type} [Datum α] (d : α) : Prop :=
  ∀ v, Datum.toValue d = .ok v → v.isWellFormed

end Datum

namespace Outcome

theorem mapError_eq_ok {ε δ α : Type} {f : ε → δ} {o : Outcome ε α} {a : α} :
    o.mapError f = .ok a ↔ o = .ok a := by
  cases o <;> simp [mapError]

end Outcome

namespace Writer

variable {α : Type} [Datum α] {schema : Schema} {d : α}

/-- What a datum resolves to is what its value resolves to, in the order of the datum, if no long of
it is narrowed. -/
theorem resolve_eq_ok {v : Value} (h : resolve schema d = .ok v) :
    ∃ given names r, Datum.toValue d = .ok given ∧ schema.names = .ok names ∧
      given.resolveWithin names schema.ns schema = .ok r ∧
      (Datum.arrangement d).arrange r = v ∧
      (given.containsLong → given.checkNarrowing v = .ok ()) := by
  unfold resolve at h
  cases hgiven : Datum.toValue d with
  | error e => rw [hgiven] at h; cases h
  | ok given =>
    rw [hgiven] at h
    obtain ⟨_, ⟨⟩, h⟩ := Outcome.bind_eq_ok.mp h
    obtain ⟨r, hr, h⟩ := Outcome.bind_eq_ok.mp h
    simp only at h
    generalize hordered : (Datum.arrangement d).arrange r = resolved at h
    have hv : resolved = v ∧ (given.containsLong → given.checkNarrowing resolved = .ok ()) := by
      by_cases hlong : given.containsLong
      · rw [if_pos hlong] at h
        cases hcheck : given.checkNarrowing resolved with
        | error n => rw [hcheck] at h; cases h
        | ok _ => rw [hcheck] at h; cases h; exact ⟨rfl, fun _ => rfl⟩
      · rw [if_neg hlong] at h
        cases h
        exact ⟨rfl, fun hc => absurd hc hlong⟩
    obtain ⟨rfl, hcheck⟩ := hv
    unfold resolveValue at hr
    cases hnames : schema.names with
    | error e => rw [hnames] at hr; cases hr
    | ok names =>
      rw [hnames] at hr
      exact ⟨given, names, r, rfl, rfl, Outcome.mapError_eq_ok.mp hr, hordered, hcheck⟩

/-- What is resolved is validated and encoded. -/
theorem direct_of_resolve {v : Value} (h : resolve schema d = .ok v) :
    direct schema d =
      match encodeValue schema v with
      | (bytes, none) => .ok bytes
      | (_, some stop) => .error stop := by
  rw [direct, h]
  rfl

/-- What is written directly was resolved, has no issues and is encoded to the end. -/
theorem direct_eq_ok {b : Bytes} (h : direct schema d = .ok b) :
    ∃ v names, resolve schema d = .ok v ∧ schema.names = .ok names ∧
      v.issues (Fallback.ofDepth (Value.defaultDepth names schema)) names schema.ns schema =
        .ok [] ∧
      v.encode names schema.ns schema = .done b := by
  obtain ⟨v, hv, h⟩ := Outcome.bind_eq_ok.mp h
  unfold encodeValue at h
  cases hnames : schema.names with
  | error e => rw [hnames] at h; cases h
  | ok names =>
    rw [hnames] at h
    simp only at h
    split at h
    · rename_i bytes heq
      cases h
      split at heq
      · cases heq
      · cases heq
      · rename_i hissues
        refine ⟨v, names, hv, rfl, hissues, ?_⟩
        generalize v.encode names schema.ns schema = e at heq
        obtain ⟨bytes, stop⟩ := e
        cases stop with
        | some stop => cases heq
        | none => cases heq; rfl
    · cases h

/-- What the datum resolves to has the form of the schema, the sizes of fixed bytes included. -/
def Formed (schema : Schema) (d : α) : Prop :=
  ∃ v names, resolve schema d = .ok v ∧ schema.names = .ok names ∧
    Value.HasForm true names schema v

/-- What a well-formed datum resolves to has the form of a regular schema but for the sizes. -/
theorem resolve_hasForm {strict : Bool} {v : Value} (hs : schema.regularAlone strict)
    (hd : Datum.WellFormed d) (h : resolve schema d = .ok v) :
    ∃ names, schema.names = .ok names ∧ Value.HasForm false names schema v := by
  obtain ⟨given, names, r, hgiven, hnames, hresolve, rfl, -⟩ := resolve_eq_ok h
  have hform := Value.resolveWithin_hasForm hs hnames (hd given hgiven) hresolve
  exact ⟨names, hnames, Arrangement.hasForm hform⟩

/-- Where aliases count as names, validation sees to the sizes. -/
theorem formed_of_direct {b : Bytes} (hs : schema.regularAlone true) (hd : Datum.WellFormed d)
    (h : direct schema d = .ok b) : Formed schema d := by
  obtain ⟨v, names, hv, hnames, hissues, -⟩ := direct_eq_ok h
  obtain ⟨names', hnames', hloose⟩ := resolve_hasForm hs hd hv
  cases hnames.symm.trans hnames'
  have hform := Value.hasForm_of_issues hloose (Schema.names_regular hs hnames) hs
    (Scope.alone schema) hissues
  exact ⟨v, names, hv, hnames, hform⟩

/-- The sizes are right if any bytes are read as what the datum resolves to. -/
theorem formed_of_read {strict : Bool} {v w : Value} {b rest : Bytes}
    (hs : schema.regularAlone strict) (hd : Datum.WellFormed d) (hv : resolve schema d = .ok v)
    (hread : Value.decodeWithin Decoder.anyLength schema b = .ok w rest)
    (hlike : Value.Alike v w) : Formed schema d := by
  obtain ⟨names, hnames, hloose⟩ := resolve_hasForm hs hd hv
  exact ⟨v, names, hv, hnames, Value.hasForm_of_decode hs hnames hloose hread hlike⟩

/-- A formed datum is read back from its direct encoding, whatever follows. -/
theorem direct_read {strict : Bool} {b : Bytes} (hs : schema.regularAlone strict)
    (hform : Formed schema d) (h : direct schema d = .ok b) :
    ∃ v, resolve schema d = .ok v ∧ ∀ rest, ∃ w, Value.Alike v w ∧
      Value.decodeWithin Decoder.anyLength schema (b ++ rest) = .ok w rest := by
  obtain ⟨v, names, hv, hnames, -, hencode⟩ := direct_eq_ok h
  obtain ⟨v', names', hv', hnames', hform⟩ := hform
  cases hv.symm.trans hv'
  cases hnames.symm.trans hnames'
  exact ⟨v, hv, Value.decodeWithin_encode hs hnames hform hencode⟩

end Writer
end RecordTape
