import Mathlib.Logic.Relation
import RecordTape.Proofs.Value.Meeting
import RecordTape.Proofs.Value.Resolved
/-!
# Landings of a resolved value

A landing is a JSON value with the schema it met and what it became there. The landings inside
another are found by going through references and branches, items and entries, the fields that an
object has and the defaults of those it lacks (`Landing.Inner`). If a JSON value met its schema, so
did the one of each landing inside (`Landing.Met.within`).
-/

namespace RecordTape

namespace Value

/-! ## JSON values as values -/

theorem ofItems_eq_map (items : List Json) : ofItems items = items.map ofJson := by
  induction items with
  | nil => rfl
  | cons j rest ih => rw [ofItems, ih, List.map_cons]

theorem ofMembers_eq_map (members : List (String × Json)) :
    ofMembers members = members.map fun p => (p.1, ofJson p.2) := by
  induction members with
  | nil => rfl
  | cons p rest ih => rw [ofMembers, ih, List.map_cons]

theorem isUnion_ofJson (j : Json) : (ofJson j).isUnion = false := by
  cases j <;> rfl

end Value

namespace Json

mutual

/-- The value of a JSON value is the one that is taken where any integer is taken. -/
theorem ofJson_of_toValue {v : Value} (j : Json) (h : j.toValue = .ok v) :
    Value.ofJson j = v := by
  cases j with
  | int n =>
    obtain ⟨-, rfl⟩ := toValue_int h
    rfl
  | array items =>
    obtain ⟨values, hvalues, ⟨⟩⟩ := Outcome.bind_eq_ok.mp h
    rw [Value.ofJson, ofItems_of_itemsToValues items hvalues]
  | object members =>
    obtain ⟨entries, hentries, ⟨⟩⟩ := Outcome.bind_eq_ok.mp h
    rw [Value.ofJson, ofMembers_of_membersToEntries members hentries]
  | _ => cases h; rfl

theorem ofItems_of_itemsToValues {values : List Value} (items : List Json)
    (h : itemsToValues items = .ok values) : Value.ofItems items = values := by
  cases items with
  | nil => cases h; rfl
  | cons item rest =>
    obtain ⟨v, hv, h⟩ := Outcome.bind_eq_ok.mp h
    obtain ⟨vs, hvs, ⟨⟩⟩ := Outcome.bind_eq_ok.mp h
    rw [Value.ofItems, ofJson_of_toValue item hv, ofItems_of_itemsToValues rest hvs]

theorem ofMembers_of_membersToEntries {entries : List (String × Value)}
    (members : List (String × Json)) (h : membersToEntries members = .ok entries) :
    Value.ofMembers members = entries := by
  cases members with
  | nil => cases h; rfl
  | cons member rest =>
    obtain ⟨v, hv, h⟩ := Outcome.bind_eq_ok.mp h
    obtain ⟨vs, hvs, ⟨⟩⟩ := Outcome.bind_eq_ok.mp h
    rw [Value.ofMembers, ofJson_of_toValue member.2 hv, ofMembers_of_membersToEntries rest hvs]

end

end Json

namespace Value

/-! ## Schemas met by values without options -/

section Meeting

variable {fallback : Fallback} {v r : Value} {names : Names} {ns : Namespace} {s : Schema}
  {layers : Nat}

theorem meetDirect_of_not_union (fallback : Fallback) (hv : v.isUnion = false) (m n : Nat) :
    meetDirect (plain fallback v) m = meetDirect (plain fallback v) n := by
  funext names ns s
  cases s with
  | ref name => simp only [meetDirect, plain_of_not_union fallback hv (m + 2) (n + 2)]
  | _ => exact congrFun (congrFun (congrFun (plain_of_not_union fallback hv _ _) names) ns) _

/-- Behind a reference or a branch there is neither a reference nor a union. -/
theorem kind_of_plain (hv : v.isUnion = false) (h : plain fallback v layers names ns s = .ok r) :
    s.kind ≠ .ref ∧ s.kind ≠ .union := by
  cases s with
  | ref name | union branches =>
    cases v with
    | union i v => cases hv
    | _ => cases h
  | _ => exact ⟨by rintro ⟨⟩, by rintro ⟨⟩⟩

theorem fit_of_plain (hv : v.isUnion = false) (h : plain fallback v layers names ns s = .ok r) :
    v.fit fallback names ns s = .ok r := by
  have hs := kind_of_plain hv h
  rw [plain_of_not_union fallback hv layers 1] at h
  cases s with
  | ref name => exact absurd rfl hs.1
  | union branches => exact absurd rfl hs.2
  | _ => exact h

/-- A value meets a reference as its definition. -/
theorem fit_ref {name : Name} (hv : v.isUnion = false)
    (h : v.fit fallback names ns (.ref name) = .ok r) :
    ∃ target, names.find? (name.qualify ns) = some target ∧
      v.fit fallback names (name.qualify ns).ns target = .ok r := by
  have h : meetDirect (plain fallback v) 0 names ns (.ref name) = .ok r := h
  simp only [meetDirect] at h
  split at h
  · exact ⟨_, ‹_›, fit_of_plain hv h⟩
  · cases h

/-- A value meets a union as one of its branches. -/
theorem fit_branch {branches : List Schema} (hv : v.isUnion = false)
    (h : v.fit fallback names ns (.union branches) = .ok r) :
    ∃ i branch u, branches[i]? = some branch ∧ r = .union i u ∧
      v.fit fallback names ns branch = .ok u := by
  obtain ⟨⟨i, branch⟩, hchoose, h⟩ := Outcome.bind_eq_ok.mp h
  obtain ⟨u, hu, ⟨⟩⟩ := Outcome.bind_eq_ok.mp h
  refine ⟨i, branch, u, chooseBranch_ok hchoose, rfl, ?_⟩
  rw [meetDirect_of_not_union fallback hv 1 0] at hu
  cases branch with
  | union branches => exact fit_of_plain hv hu
  | _ => exact hu

end Meeting

/-- Each field of the schema is in the record at its position, resolved from its entry if there is
one and from the fallback otherwise. -/
theorem resolveFields_getElem? {fallback : Fallback} {names : Names} {ns : Namespace}
    {fields : List (Field Schema)} {entries : List (String × Fitting)}
    {resolved : List (String × Value)} {i : Nat} {f : Field Schema}
    (h : resolveFields fallback names ns fields entries = .ok (.record resolved))
    (hf : fields[i]? = some f) :
    ∃ r, resolved[i]? = some (f.name, r) ∧
      (∀ entry, entries.lookup f.name = some entry → entry names ns f.schema = .ok r) ∧
      (entries.lookup f.name = none → fallback names ns f = .ok r) := by
  obtain ⟨_, hall, ⟨⟩⟩ := Outcome.bind_eq_ok.mp h
  obtain ⟨hi, -⟩ := List.getElem?_eq_some_iff.mp hf
  have hi' : i < resolved.length := by rwa [← (Outcome.mapM_eq_ok.mp hall).length_eq]
  have hstep := Outcome.mapM_getElem? hall hf (List.getElem?_eq_getElem hi')
  rw [List.getElem?_eq_getElem hi']
  split at hstep
  · rename_i entry hentry
    obtain ⟨r, hr, heq⟩ := Outcome.bind_eq_ok.mp hstep
    refine ⟨r, congrArg some (Except.ok.inj heq).symm, fun entry' hentry' => ?_, fun hnone => ?_⟩
    · cases hentry.symm.trans hentry'
      exact hr
    · cases hentry.symm.trans hnone
  · rename_i hnone
    obtain ⟨r, hr, heq⟩ := Outcome.bind_eq_ok.mp hstep
    refine ⟨r, congrArg some (Except.ok.inj heq).symm, fun entry' hentry' => ?_, fun _ => hr⟩
    cases hentry'.symm.trans hnone

end Value

/-! ## Landings -/

/-- A JSON value, the schema it meets in a namespace, and what it becomes. -/
structure Landing where
  ns : Namespace
  schema : Schema
  json : Json
  value : Value

namespace Landing

/-- The landing inside another that one step leads to. The name of a record is no namespace for what
its fields refer to; a definition behind a reference stands in the namespace of its name. -/
inductive Inner (names : Names) : Landing → Landing → Prop
  | target {ns : Namespace} {name : Name} {s : Schema} {j : Json} {v : Value} :
      names.find? (name.qualify ns) = some s →
      Inner names ⟨ns, .ref name, j, v⟩ ⟨(name.qualify ns).ns, s, j, v⟩
  | branch {ns : Namespace} {branches : List Schema} {i : Nat} {s : Schema} {j : Json}
      {v : Value} : branches[i]? = some s →
      Inner names ⟨ns, .union branches, j, .union i v⟩ ⟨ns, s, j, v⟩
  | item {ns : Namespace} {s : Schema} {items : List Json} {values : List Value} {i : Nat}
      {j : Json} {v : Value} : items[i]? = some j → values[i]? = some v →
      Inner names ⟨ns, .array s, .array items, .array values⟩ ⟨ns, s, j, v⟩
  | entry {ns : Namespace} {s : Schema} {members : List (String × Json)}
      {entries : List (String × Value)} {key : String} {j : Json} {v : Value} :
      members.lookup key = some j → entries.lookup key = some v →
      Inner names ⟨ns, .map s, .object members, .map entries⟩ ⟨ns, s, j, v⟩
  | field {ns : Namespace} {name : Name} {fields : List (Field Schema)}
      {members : List (String × Json)} {entries : List (String × Value)} {i : Nat}
      {f : Field Schema} {j : Json} {v : Value} :
      fields[i]? = some f → members.lookup f.name = some j → entries[i]? = some (f.name, v) →
      Inner names ⟨ns, .record name fields, .object members, .record entries⟩ ⟨ns, f.schema, j, v⟩
  /-- The default of a union or of an enumeration becomes what it is in two steps. -/
  | default {ns : Namespace} {name : Name} {fields : List (Field Schema)}
      {members : List (String × Json)} {entries : List (String × Value)} {i : Nat}
      {f : Field Schema} {j : Json} {v : Value} :
      fields[i]? = some f → members.lookup f.name = none → f.default = some j →
      f.schema.kind ≠ .union → f.schema.kind ≠ .enum → entries[i]? = some (f.name, v) →
      Inner names ⟨ns, .record name fields, .object members, .record entries⟩ ⟨ns, f.schema, j, v⟩

/-- The landings inside a landing, itself among them. -/
def Within (names : Names) : Landing → Landing → Prop := Relation.ReflTransGen (Inner names)

/-- The JSON value became the value of the landing, with defaults allowed up to some depth. -/
def Met (names : Names) (p : Landing) : Prop :=
  ∃ depth, (Value.ofJson p.json).fit (.ofDepth depth) names p.ns p.schema = .ok p.value

section Met

variable {names : Names} {ns : Namespace} {fallback : Fallback}

/-- The fittings of the members of an object, by name. -/
theorem lookup_entryFittings (fallback : Fallback) (members : List (String × Json))
    (name : String) :
    (Value.entryFittings fallback (Value.ofMembers members)).lookup name =
      (members.lookup name).map fun j => (Value.ofJson j).fit fallback := by
  rw [Value.entryFittings_eq_map, Value.ofMembers_eq_map, Value.lookup_map_snd,
    Value.lookup_map_snd, Option.map_map]
  rfl

/-- A default that is neither for a union nor for an enumeration meets the schema of its field. -/
theorem fit_of_fallback {inner : Fallback} {f : Field Schema} {j : Json} {v : Value}
    (h : Fallback.ofFallback inner names ns f = .ok v) (hj : f.default = some j)
    (hunion : f.schema.kind ≠ .union) (henum : f.schema.kind ≠ .enum) :
    (Value.ofJson j).fit inner names ns f.schema = .ok v := by
  simp only [Fallback.ofFallback, hj] at h
  split at h
  · rename_i hs; exact absurd (congrArg Schema.kind hs) henum
  · rename_i hs; exact absurd (congrArg Schema.kind hs) hunion
  · rename_i hs; exact absurd (congrArg Schema.kind hs) hunion
  · rename_i hs; exact absurd (congrArg Schema.kind hs) hunion
  · exact h

/-- One step inside leads from what met its schema to what met its schema. -/
theorem Inner.met {p q : Landing} (h : Inner names p q) (hp : p.Met names) : q.Met names := by
  obtain ⟨depth, hp⟩ := hp
  cases h with
  | target hfind =>
    obtain ⟨s, hs, hfit⟩ := Value.fit_ref (Value.isUnion_ofJson _) hp
    cases hfind.symm.trans hs
    exact ⟨depth, hfit⟩
  | branch hbranch =>
    obtain ⟨i, s, u, hs, heq, hfit⟩ := Value.fit_branch (Value.isUnion_ofJson _) hp
    cases heq
    cases hbranch.symm.trans hs
    exact ⟨depth, hfit⟩
  | @item ns s items values i j v hj hv =>
    obtain ⟨_, hall, ⟨⟩⟩ := Outcome.bind_eq_ok.mp hp
    refine ⟨depth, Outcome.mapM_getElem? hall ?_ hv⟩
    rw [Value.fittings_eq_map, Value.ofItems_eq_map, List.map_map, List.getElem?_map, hj]
    rfl
  | entry hj hv =>
    exact ⟨depth, Value.resolveEntries_lookup hp
      ((lookup_entryFittings _ _ _).trans (congrArg _ hj)) hv⟩
  | field hf hj hv =>
    obtain ⟨r, hr, hentry, -⟩ := Value.resolveFields_getElem? hp hf
    cases hv.symm.trans hr
    exact ⟨depth, hentry _ ((lookup_entryFittings _ _ _).trans (congrArg _ hj))⟩
  | default hf hnone hj hunion henum hv =>
    obtain ⟨r, hr, -, hfallback⟩ := Value.resolveFields_getElem? hp hf
    cases hv.symm.trans hr
    have hdefault := hfallback ((lookup_entryFittings _ _ _).trans (congrArg _ hnone))
    cases depth with
    | zero => cases hdefault
    | succ depth => exact ⟨depth, fit_of_fallback hdefault hj hunion henum⟩

/-- Every landing inside one that met its schema met its own. -/
theorem Met.within {p q : Landing} (hp : p.Met names) (h : Within names p q) : q.Met names := by
  induction h with
  | refl => exact hp
  | tail _ hstep ih => exact hstep.met ih

end Met

/-! ## Values that are alike -/

/-- What is like a record is a record with like values under the same names. -/
theorem record_of_alike {v : Value} {entries : List (String × Value)}
    (h : Value.Alike v (.record entries)) :
    ∃ entries', v = .record entries' ∧
      Value.EntriesRelated Value.Alike entries' entries := by
  cases h with
  | refl => exact ⟨entries, rfl, List.forall₂_same.mpr fun p _ => ⟨rfl, .refl p.2⟩⟩
  | @record vs ws hkeys hvalues => exact ⟨vs, rfl, .of_maps hkeys hvalues⟩

/-- Inside a value that is like another there are the landings of the other. -/
theorem Inner.alike {names : Names} {p q : Landing} {v : Value} (h : Inner names p q)
    (hv : Value.Alike v p.value) :
    ∃ w, Value.Alike w q.value ∧ Inner names { p with value := v } { q with value := w } := by
  cases h with
  | target hfind => exact ⟨v, hv, .target hfind⟩
  | branch hbranch =>
    cases hv with
    | refl => exact ⟨_, .refl _, .branch hbranch⟩
    | union i hv => exact ⟨_, hv, .branch hbranch⟩
  | @item _ _ _ values i _ _ hj hi =>
    cases hv with
    | refl => exact ⟨_, .refl _, .item hj hi⟩
    | array hall =>
      obtain ⟨w, hw, halike⟩ := Value.exists_left_of_rel (Value.rel_getElem? hall i) hi
      exact ⟨w, halike, .item hj hw⟩
  | @entry _ _ _ entries key _ _ hj hi =>
    cases hv with
    | refl => exact ⟨_, .refl _, .entry hj hi⟩
    | map hkeys hall =>
      have hentry := (Value.EntriesRelated.of_maps hkeys hall).lookup key
      obtain ⟨w, hw, halike⟩ := Value.exists_left_of_rel hentry hi
      exact ⟨w, halike, .entry hj hw⟩
  | field hf hj hi =>
    obtain ⟨entries, rfl, hall⟩ := record_of_alike hv
    obtain ⟨⟨_, w⟩, hw, rfl, halike⟩ := Value.exists_left_of_rel (Value.rel_getElem? hall _) hi
    exact ⟨w, halike, .field hf hj hw⟩
  | default hf hnone hj hunion henum hi =>
    obtain ⟨entries, rfl, hall⟩ := record_of_alike hv
    obtain ⟨⟨_, w⟩, hw, rfl, halike⟩ := Value.exists_left_of_rel (Value.rel_getElem? hall _) hi
    exact ⟨w, halike, .default hf hnone hj hunion henum hw⟩

theorem Within.alike {names : Names} {p q : Landing} {v : Value} (h : Within names p q)
    (hv : Value.Alike v p.value) :
    ∃ w, Value.Alike w q.value ∧ Within names { p with value := v } { q with value := w } := by
  induction h with
  | refl => exact ⟨v, hv, .refl⟩
  | tail _ hstep ih =>
    obtain ⟨w, hw, hwithin⟩ := ih
    obtain ⟨u, hu, hinner⟩ := hstep.alike hw
    exact ⟨u, hu, hwithin.tail hinner⟩

end Landing
end RecordTape
