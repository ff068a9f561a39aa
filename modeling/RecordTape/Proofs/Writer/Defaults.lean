import Mathlib.Algebra.Group.Int.Defs
import Mathlib.Algebra.Group.Nat.Defs
import RecordTape.Proofs.Value.Descent
import RecordTape.Proofs.Writer.ReadBack
/-!
# Integers that are defaults

A field that an object lacks takes the default of the schema, and no check holds what it becomes
against what was declared. An integer that does not fit the width of its field is stored as what is
left of it in that width.
-/

namespace RecordTape

namespace Schema

/-- The width of an int or long, also of one that is the first branch of a union. -/
def integerWidth? : Schema → Option Nat
  | .int | .union (.int :: _) => some 32
  | .long | .union (.long :: _) => some 64
  | _ => none

theorem integerWidth?_eq_some {s : Schema} {width : Nat} (h : s.integerWidth? = some width) :
    (s = .int ∨ ∃ rest, s = .union (.int :: rest)) ∧ width = 32 ∨
      (s = .long ∨ ∃ rest, s = .union (.long :: rest)) ∧ width = 64 := by
  unfold integerWidth? at h
  split at h <;> cases h
  · exact .inl ⟨.inl rfl, rfl⟩
  · exact .inl ⟨.inr ⟨_, rfl⟩, rfl⟩
  · exact .inr ⟨.inl rfl, rfl⟩
  · exact .inr ⟨.inr ⟨_, rfl⟩, rfl⟩

end Schema

namespace Value

/-- The integer in an int or long, also in one that is a branch. -/
def integer? (v : Value) : Option Int :=
  match v.content with
  | .int n => some n.toInt
  | .long n => some n.toInt
  | _ => none

theorem Alike.integer? {v w : Value} (h : Alike v w) : v.integer? = w.integer? := by
  have hc := h.content
  unfold Value.integer?
  generalize v.content = v, w.content = w at hc
  cases hc <;> rfl

end Value

namespace Fallback

/-- An integer that is a default is cut down to the width of its field. -/
theorem integer_ofDepth {depth : Nat} {names : Names} {ns : Namespace} {f : Field Schema} {d : Int}
    {width : Nat} {v : Value} (h : ofDepth depth names ns f = .ok v)
    (hd : f.default = some (.int d)) (hwidth : f.schema.integerWidth? = some width) :
    v.integer? = some (d.bmod (2 ^ width)) := by
  have hint : (Int64.ofInt d).toInt32.toInt = d.bmod (2 ^ 32) := by
    rw [Int64.toInt_toInt32, Int64.toInt_ofInt]
    exact Int.bmod_bmod_of_dvd (by decide)
  have hlong : (Int64.ofInt d).toInt = d.bmod (2 ^ 64) := Int64.toInt_ofInt
  cases depth with
  | zero => cases h
  | succ depth =>
    obtain ⟨name, aliases, default, schema⟩ := f
    cases hd
    rcases Schema.integerWidth?_eq_some hwidth with
      ⟨rfl | ⟨rest, rfl⟩, rfl⟩ | ⟨rfl | ⟨rest, rfl⟩, rfl⟩
    · cases h
      exact congrArg some hint
    · cases h
      exact congrArg some hint
    · cases h
      exact congrArg some hlong
    · cases h
      exact congrArg some hlong

end Fallback

namespace Landing

/-- Where an object became a record, each field that the object lacks and that has an integer as its
default is there, with the integer cut down to the width of the field. It is the integer itself if
that fits, and only then. -/
def Defaulted (p : Landing) : Prop :=
  ∀ (name : Name) (fields : List (Field Schema)) (members : List (String × Json))
    (entries : List (String × Value)) (i : Nat) (f : Field Schema) (d : Int) (width : Nat),
    p.schema = .record name fields → p.json = .object members → p.value = .record entries →
    fields[i]? = some f → members.lookup f.name = none → f.default = some (.int d) →
    f.schema.integerWidth? = some width →
    ∃ v, entries[i]? = some (f.name, v) ∧ v.integer? = some (d.bmod (2 ^ width)) ∧
      (v.integer? = some d ↔ -2 ^ (width - 1) ≤ d ∧ d < 2 ^ (width - 1))

theorem bmod_eq_self_iff {width : Nat} (hwidth : width = 32 ∨ width = 64) (d : Int) :
    d.bmod (2 ^ width) = d ↔ -2 ^ (width - 1) ≤ d ∧ d < 2 ^ (width - 1) := by
  have hpos : 0 < 2 ^ width := Nat.two_pow_pos width
  constructor
  · intro h
    have hle := Int.le_bmod (x := d) hpos
    have hlt := Int.bmod_lt (x := d) hpos
    rcases hwidth with rfl | rfl <;> omega
  · rintro ⟨hle, hlt⟩
    rcases hwidth with rfl | rfl <;> exact Int.bmod_eq_of_le (by omega) (by omega)

theorem Met.defaulted {names : Names} {p : Landing} (h : p.Met names) : p.Defaulted := by
  intro name fields members entries i f d width hschema hjson hvalue hf hnone hd hwidth
  obtain ⟨ns, s, j, v⟩ := p
  cases hschema
  cases hjson
  cases hvalue
  obtain ⟨depth, hfit⟩ := h
  obtain ⟨v, hv, -, hfallback⟩ := Value.resolveFields_getElem? hfit hf
  have hinteger := Fallback.integer_ofDepth
    (hfallback ((lookup_entryFittings _ _ _).trans (congrArg _ hnone))) hd hwidth
  refine ⟨v, hv, hinteger, ?_⟩
  rw [hinteger, Option.some_inj]
  refine bmod_eq_self_iff ?_ d
  exact (Schema.integerWidth?_eq_some hwidth).imp And.right And.right

/-- A value that a record with its defaults is like has them too. -/
theorem Defaulted.of_alike {p : Landing} {v : Value} (h : { p with value := v }.Defaulted)
    (hv : Value.Alike v p.value) : p.Defaulted := by
  intro name fields members entries i f d width hschema hjson hvalue hf hnone hd hwidth
  rw [hvalue] at hv
  obtain ⟨entries', rfl, hall⟩ := record_of_alike hv
  obtain ⟨v, hv, hinteger⟩ := h name fields members entries' i f d width hschema hjson rfl hf hnone
    hd hwidth
  obtain ⟨⟨_, w⟩, hw, rfl, halike⟩ := Value.exists_right_of_rel (Value.rel_getElem? hall i) hv
  rw [halike.integer?] at hinteger
  exact ⟨w, hw, hinteger⟩

end Landing

namespace Writer

/-- What a writer encodes of a JSON value has the defaults of the fields that its objects lack, each
as its width leaves it, and so has what is read back. -/
theorem encode_defaulted {schema : Schema} {w : Writer} {j : Json} {b : Bytes}
    (hw : Ready schema w) (h : (w.encode j).1 = .ok b) :
    ∃ v names, resolve schema j = .ok v ∧ schema.names = .ok names ∧
      v.encode names schema.ns schema = .done b ∧
      (∀ landing, Landing.Within names ⟨schema.ns, schema, j, v⟩ landing → landing.Defaulted) ∧
      (schema.regularAlone false → Formed schema j →
        ∃ u, Value.decodeWithin Decoder.anyLength schema b = .ok u [] ∧ Value.Alike v u ∧
          ∀ landing, Landing.Within names ⟨schema.ns, schema, j, u⟩ landing → landing.Defaulted) ∧
      (schema.regularAlone true → Datum.WellFormed j → Formed schema j) := by
  rw [encode_ready hw] at h
  have hdirect := Outcome.mapError_eq_ok.mp h
  obtain ⟨v, names, hv, hnames, -, hencode⟩ := direct_eq_ok hdirect
  have hmet : Landing.Met names ⟨schema.ns, schema, j, v⟩ := by
    obtain ⟨given, names', r, hgiven, hnames', hresolve, hr, -⟩ := resolve_eq_ok hv
    obtain rfl : r = v := hr
    cases hnames.symm.trans hnames'
    exact ⟨_, Json.ofJson_of_toValue j hgiven ▸ hresolve⟩
  refine ⟨v, names, hv, hnames, hencode, fun landing hlanding => (hmet.within hlanding).defaulted,
    fun hs hform => ?_, fun hs hj => formed_of_direct hs hj hdirect⟩
  obtain ⟨v', hv', hread⟩ := direct_read hs hform hdirect
  cases hv.symm.trans hv'
  obtain ⟨u, halike, hu⟩ := hread []
  rw [List.append_nil] at hu
  refine ⟨u, hu, halike, fun landing hlanding => ?_⟩
  obtain ⟨w, hw, hwithin⟩ := hlanding.alike halike
  exact (hmet.within hwithin).defaulted.of_alike hw

def partSchema : Schema :=
  .record ⟨none, "Part"⟩
    [⟨"id", [], some (.int 7), .int⟩,
      ⟨"size", [], some (.int 1099511627776), .union [.long, .null]⟩]

def partsSchema : Schema :=
  .record ⟨none, "Parts"⟩ [⟨"parts", [], none, .array partSchema⟩]

/-- The first part lacks its number, the second one its size. -/
def parts : Json :=
  .object [("parts", .array [.object [("size", .null)], .object [("id", .int 1)]])]

/-- The second part is read back with the size that is the default. -/
theorem encode_defaulted_parts :
    ∃ w b u names entries, forSchema partsSchema = .ok w ∧ (w.encode parts).1 = .ok b ∧
      Value.decodeWithin Decoder.anyLength partsSchema b = .ok u [] ∧
      Landing.Within names ⟨none, partsSchema, parts, u⟩
        ⟨none, partSchema, .object [("id", .int 1)], .record entries⟩ ∧
      ∃ v, entries[1]? = some ("size", v) ∧ v.integer? = some 1099511627776 := by
  obtain ⟨w, hw⟩ : ∃ w, forSchema partsSchema = .ok w := ⟨_, rfl⟩
  have hready := ready_of_create (create_of_forSchema hw)
  have hdirect : direct partsSchema parts =
      .ok [4, 14, 2, 2, 0, 128, 128, 128, 128, 128, 64, 0] := by with_unfolding_all rfl
  have hencode : (w.encode parts).1 = .ok _ :=
    (encode_ready hready parts).trans (Outcome.mapError_eq_ok.mpr hdirect)
  have hwell : Datum.WellFormed parts := by
    rintro v ⟨⟩
    decide
  obtain ⟨_, names, -, -, -, -, hread, hformed⟩ := encode_defaulted hready hencode
  obtain ⟨u, hu, -, hdefaulted⟩ := hread (by decide) (hformed (by decide) hwell)
  obtain ⟨first, entries, rfl⟩ : ∃ first entries,
      u = .record [("parts", .array [first, .record entries])] := by
    cases hu
    exact ⟨_, _, rfl⟩
  have hlist : Landing.Inner names
      ⟨none, partsSchema, parts, .record [("parts", .array [first, .record entries])]⟩
      ⟨none, .array partSchema, .array [.object [("size", .null)], .object [("id", .int 1)]],
        .array [first, .record entries]⟩ :=
    .field (i := 0) (f := ⟨"parts", [], none, .array partSchema⟩) rfl rfl rfl
  have hlanding := (Relation.ReflTransGen.single hlist).tail (.item (i := 1) rfl rfl)
  obtain ⟨v, hv, hinteger, -⟩ := hdefaulted _ hlanding _ _ _ _ 1 _ _ _ rfl rfl rfl rfl rfl rfl rfl
  exact ⟨w, _, _, names, entries, hw, hencode, hu, hlanding, v, hv, hinteger⟩

/-- A default of more than 32 bits for an int is accepted and read back as another integer. -/
theorem encode_truncates_default :
    ∃ w u, forSchema (.record ⟨none, "R"⟩ [⟨"f", [], some (.int 4294967301), .int⟩]) = .ok w ∧
      (w.encode (Json.object [])).1 = .ok [10] ∧
      Value.decodeWithin Decoder.anyLength
        (.record ⟨none, "R"⟩ [⟨"f", [], some (.int 4294967301), .int⟩]) [10] = .ok u [] ∧
      u = .record [("f", .int 5)] :=
  ⟨_, _, rfl, by with_unfolding_all rfl, rfl, rfl⟩

end Writer
end RecordTape
