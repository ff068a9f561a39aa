import RecordTape.Proofs.Value.SignsApart
import RecordTape.Proofs.Writer.Direct
/-!
# Direct encodings of equal data

Two data whose values differ in the signs of zeros at most are encoded as bytes that do, or neither
has a direct encoding (`encodeAlone_alike`). Under a schema without floating-point numbers nothing
tells them apart, errors included (`encodeAlone_congr`).
-/

namespace RecordTape

namespace Value

theorem oneZero_of_view {loose : Bool} {v w : Value} (h : v.view loose = w.view loose) :
    v.oneZero = w.oneZero := by
  cases loose
  · exact congrArg oneZero h
  · exact h

end Value

namespace Writer

open Outcome (Agree)

variable {schema : Schema}

theorem resolveValue_agree {loose : Bool} (hs : loose = false → schema.hasFloat = false)
    (v : Value) :
    Agree (Value.view loose) (resolveValue schema v.oneZero) (resolveValue schema v) := by
  unfold resolveValue
  cases hnames : schema.names with
  | error e => exact .refl _
  | ok names =>
    have hcovers : Covers loose names schema :=
      fun hloose => ⟨hs hloose, Schema.names_floatless (hs hloose) hnames⟩
    exact (Value.fit_agree _ v schema.ns hcovers).mapError _

/-- What data with such values resolve to differs in the signs of zeros at most. -/
theorem resolve_agree {loose : Bool} (hs : loose = false → schema.hasFloat = false) {a b : Json}
    (h : Agree Value.oneZero (Datum.toValue a) (Datum.toValue b)) :
    Agree (Value.view loose) (resolve schema a) (resolve schema b) := by
  unfold resolve
  rcases h.cases with ⟨e, ha, hb⟩ | ⟨v, w, ha, hb, hvw⟩
  · rw [ha, hb]
    exact .refl _
  · have hresolved : Agree (Value.view loose) (resolveValue schema v) (resolveValue schema w) := by
      have hv := resolveValue_agree hs v
      rw [hvw] at hv
      exact hv.symm.trans (resolveValue_agree hs w)
    rw [ha, hb]
    refine hresolved.bind fun r r' hr => ?_
    have hcheck : v.checkNarrowing r = w.checkNarrowing r' := by
      rw [← Value.checkNarrowing_oneZero, hvw, Value.oneZero_of_view hr,
        Value.checkNarrowing_oneZero]
    simp only [Json.arrangement_eq, Arrangement.listed_arrange]
    rw [← Value.containsLong_oneZero v, hvw, Value.containsLong_oneZero, hcheck]
    split
    · split
      · exact .ok hr
      · exact .refl _
    · exact .ok hr

/-- Values that differ in the signs of zeros at most have the same issues, and are encoded alike. -/
theorem encodeValue_alike (schema : Schema) {v w : Value} (h : v.oneZero = w.oneZero) :
    SignsApart (encodeValue schema v).1 (encodeValue schema w).1 ∧
      (encodeValue schema v).2.map (Stop.map fun _ => ()) =
        (encodeValue schema w).2.map (Stop.map fun _ => ()) := by
  unfold encodeValue
  cases schema.names with
  | error e => exact ⟨.nil, rfl⟩
  | ok names =>
    have hissues (fallback : Fallback) : v.issues fallback = w.issues fallback := by
      rw [← Value.issues_oneZero, h, Value.issues_oneZero]
    have hencode := Value.encode_alike h names schema.ns schema
    simp only [hissues]
    split
    · exact ⟨.nil, rfl⟩
    · exact ⟨.nil, rfl⟩
    · refine ⟨hencode.bytes, ?_⟩
      have hstop := hencode.stop
      generalize (v.encode names schema.ns schema).stop = stop at hstop ⊢
      generalize (w.encode names schema.ns schema).stop = stop' at hstop ⊢
      rcases stop with _ | _ | _ <;> rcases stop' with _ | _ | _ <;> cases hstop <;> rfl

theorem direct_alike {a b : Json} (h : Agree Value.oneZero (Datum.toValue a) (Datum.toValue b)) :
    Outcome.Alike SignsApart (direct schema a) (direct schema b) := by
  have hloose : true = false → schema.hasFloat = false := nofun
  have hresolve := resolve_agree hloose h
  unfold direct
  rcases hresolve.cases with ⟨e, ha, hb⟩ | ⟨v, w, ha, hb, hvw⟩
  · rw [ha, hb]
    exact .stopped e
  · rw [ha, hb]
    obtain ⟨hbytes, hstop⟩ := encodeValue_alike schema hvw
    simp only [bind, Except.bind]
    generalize encodeValue schema v = p at hbytes hstop ⊢
    generalize encodeValue schema w = q at hbytes hstop ⊢
    obtain ⟨x, stop⟩ := p
    obtain ⟨y, stop'⟩ := q
    rcases stop with _ | e | f <;> rcases stop' with _ | e' | f' <;> cases hstop
    · exact .ok hbytes
    · exact .error e e'
    · exact .fault _

/-- Nothing tells the two data apart under a schema without floating-point numbers. -/
theorem direct_congr (hs : schema.hasFloat = false) {a b : Json}
    (h : Agree Value.oneZero (Datum.toValue a) (Datum.toValue b)) :
    direct schema a = direct schema b := by
  have hresolve : Agree (Value.view false) (resolve schema a) (resolve schema b) :=
    resolve_agree (fun _ => hs) h
  unfold direct
  rcases hresolve.cases with ⟨e, ha, hb⟩ | ⟨v, w, ha, hb, hvw⟩
  · rw [ha, hb]
  · rw [ha, hb, show v = w from hvw]

/-- Equal data are encoded alike, whether or not the schema binds. -/
theorem encodeAlone_alike (schema : Schema) {a b : Json}
    (h : Agree Value.oneZero (Datum.toValue a) (Datum.toValue b)) :
    Outcome.Alike SignsApart (encodeAlone schema a) (encodeAlone schema b) := by
  cases hcreate : create schema with
  | error stop =>
    rw [encodeAlone, encodeAlone, hcreate]
    exact .stopped _
  | ok w =>
    rw [encodeAlone_of_ready (ready_of_create hcreate),
      encodeAlone_of_ready (ready_of_create hcreate)]
    exact (direct_alike h).mapError _

theorem encodeAlone_congr {schema : Schema} (hs : schema.hasFloat = false) {a b : Json}
    (h : Agree Value.oneZero (Datum.toValue a) (Datum.toValue b)) :
    encodeAlone schema a = encodeAlone schema b := by
  cases hcreate : create schema with
  | error stop => rw [encodeAlone, encodeAlone, hcreate]; rfl
  | ok w =>
    rw [encodeAlone_of_ready (ready_of_create hcreate),
      encodeAlone_of_ready (ready_of_create hcreate), direct_congr hs h]

end Writer
end RecordTape
