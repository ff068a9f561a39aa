import RecordTape.Proofs.Schema.Parts
import RecordTape.Proofs.Value.OneZero
import RecordTape.Proofs.Value.Resolved
/-!
# Resolution up to the signs of zeros

A value with its negative zeros made positive meets a schema as the value itself does: both fail
alike, or both results are the same but for the signs of zeros (`fit_agree`). Where no schema in
reach is for floating-point numbers the results are the same outright. `view` is what is looked at
in a result, and `Covers` says where it may be everything.
-/

namespace RecordTape

open Outcome (Agree)

namespace Schema

mutual

/-- Somewhere in the schema is one for floating-point numbers. What a reference stands for does not
count. -/
def hasFloat : Schema → Bool
  | float | double => true
  | array items => hasFloat items
  | map values => hasFloat values
  | union branches => branchesHaveFloat branches
  | record _ fields => fieldsHaveFloat fields
  | _ => false

def branchesHaveFloat : List Schema → Bool
  | [] => false
  | s :: rest => hasFloat s || branchesHaveFloat rest

def fieldsHaveFloat : List (Field Schema) → Bool
  | [] => false
  | ⟨_, _, _, s⟩ :: rest => hasFloat s || fieldsHaveFloat rest

end

theorem hasFloat_of_branch {s : Schema} {branches : List Schema} (hs : s ∈ branches)
    (h : branchesHaveFloat branches = false) : s.hasFloat = false := by
  induction branches with
  | nil => cases hs
  | cons b rest ih =>
    rw [branchesHaveFloat, Bool.or_eq_false_iff] at h
    rcases List.mem_cons.mp hs with rfl | hs
    · exact h.1
    · exact ih hs h.2

theorem hasFloat_of_field {f : Field Schema} {fields : List (Field Schema)} (hf : f ∈ fields)
    (h : fieldsHaveFloat fields = false) : f.schema.hasFloat = false := by
  induction fields with
  | nil => cases hf
  | cons g rest ih =>
    rw [fieldsHaveFloat, Bool.or_eq_false_iff] at h
    rcases List.mem_cons.mp hf with rfl | hf
    · exact h.1
    · exact ih hf h.2

end Schema

namespace Names

/-- No definition is for floating-point numbers, or has a part that is. -/
def Floatless (names : Names) : Prop := ∀ p ∈ names, p.2.hasFloat = false

theorem Floatless.find? {names : Names} (h : names.Floatless) {name : Name} {s : Schema}
    (hfind : names.find? name = some s) : s.hasFloat = false := by
  obtain ⟨l₁, l₂, rfl, -⟩ := List.lookup_eq_some_iff.mp hfind
  exact h (name, s) (by simp)

end Names

namespace Schema

/-- A part of a schema without floating-point numbers has none. -/
theorem hasFloat_of_within {s t : Schema} (hin : t.Within s) (h : s.hasFloat = false) :
    t.hasFloat = false := by
  induction hin with
  | refl => exact h
  | items _ ih | values _ ih => exact ih h
  | branch hb _ ih => exact ih (hasFloat_of_branch hb h)
  | field hf _ ih => exact ih (hasFloat_of_field hf h)

theorem names_floatless {s : Schema} {names : Names} (hs : s.hasFloat = false)
    (h : s.names = .ok names) : names.Floatless :=
  fun p hp => hasFloat_of_within (within_of_names h p hp).1 hs

end Schema

namespace Value

/-- A value as it is, or with its negative zeros made positive. -/
def view (loose : Bool) (v : Value) : Value := if loose then v.oneZero else v

/-- The entries of a map or record, each with a view of its value. -/
def viewEntry (loose : Bool) (p : String × Value) : String × Value := (p.1, p.2.view loose)

theorem view_array (loose : Bool) (items : List Value) :
    (Value.array items).view loose = .array (items.map (view loose)) := by
  cases loose
  · exact congrArg Value.array (List.map_id items).symm
  · exact congrArg Value.array (itemsOneZero_eq items)

theorem view_map (loose : Bool) (entries : List (String × Value)) :
    (Value.map entries).view loose = .map (entries.map (viewEntry loose)) := by
  cases loose
  · exact congrArg Value.map (List.map_id entries).symm
  · exact congrArg Value.map (entriesOneZero_eq entries)

theorem view_record (loose : Bool) (fields : List (String × Value)) :
    (Value.record fields).view loose = .record (fields.map (viewEntry loose)) := by
  cases loose
  · exact congrArg Value.record (List.map_id fields).symm
  · exact congrArg Value.record (entriesOneZero_eq fields)

theorem view_union (loose : Bool) (i : Nat) (v : Value) :
    (Value.union i v).view loose = .union i (v.view loose) := by
  cases loose <;> rfl

end Value

/-- What is seen of a result tells zeros apart only where nothing in reach is for floating-point
numbers. -/
def Covers (loose : Bool) (names : Names) (s : Schema) : Prop :=
  loose = false → s.hasFloat = false ∧ names.Floatless

/-- Two fittings that come to the same under every schema, but for the signs of zeros in it. -/
def Fitting.Agree (p q : Fitting) : Prop :=
  ∀ {loose : Bool} {names : Names} (ns : Namespace) {s : Schema}, Covers loose names s →
    Outcome.Agree (Value.view loose) (p names ns s) (q names ns s)

namespace Covers

variable {loose : Bool} {names : Names} {s : Schema}

theorem always (names : Names) (s : Schema) : Covers true names s := nofun

/-- A part of the schema is covered where the schema is. -/
theorem part (h : Covers loose names s) {t : Schema}
    (ht : s.hasFloat = false → t.hasFloat = false) : Covers loose names t :=
  fun hloose => ⟨ht (h hloose).1, (h hloose).2⟩

theorem find? (h : Covers loose names s) {name : Name} {t : Schema}
    (hfind : names.find? name = some t) : Covers loose names t :=
  fun hloose => ⟨(h hloose).2.find? hfind, (h hloose).2⟩

end Covers

namespace Value

/-! ## Values without parts -/

/-- Zeros may differ in sign where the schema is for floating-point numbers. -/
theorem view_congr {loose : Bool} (hloose : loose = false → true = false) {v w : Value}
    (h : v.oneZero = w.oneZero) : v.view loose = w.view loose := by
  cases loose
  · cases hloose rfl
  · exact h

theorem resolveLeaf_agree {loose : Bool} {s : Schema} (hs : loose = false → s.hasFloat = false)
    (v : Value) :
    Agree (view loose) (resolveLeaf v.oneZero s) (resolveLeaf v s) := by
  cases v with
  | float x =>
    cases s with
    | float => exact .ok (view_congr hs (by simp only [oneZero, Binary.oneZero_oneZero]))
    | double =>
      exact .ok (view_congr hs (congrArg Value.double (Binary.oneZero_convert (by decide) x)))
    | _ => rfl
  | double x =>
    cases s with
    | float =>
      exact .ok (view_congr hs (congrArg Value.float (Binary.oneZero_convert (by decide) x)))
    | double => exact .ok (view_congr hs (by simp only [oneZero, Binary.oneZero_oneZero]))
    | _ => rfl
  | array items => cases s <;> rfl
  | map entries => cases s <;> rfl
  | union i v => cases s <;> rfl
  | record fields => cases s <;> rfl
  | _ => exact .refl _

/-! ## References and unions -/

section Meeting

variable {p q : Nat → Fitting}

theorem meetDirect_agree (h : ∀ n, (p n).Agree (q n)) (layers : Nat) :
    (meetDirect p layers).Agree (meetDirect q layers) := by
  intro loose names ns s hs
  cases s with
  | ref name =>
    simp only [meetDirect]
    split
    · exact h _ _ (hs.find? ‹_›)
    · exact .refl _
  | _ => exact h _ _ hs

theorem searchBranch_agree (h : ∀ n, (p n).Agree (q n)) (ns : Namespace) (names : Names) (i : Nat)
    (branches : List Schema) :
    searchBranch p ns names i branches = searchBranch q ns names i branches := by
  induction branches generalizing names i with
  | nil => rfl
  | cons branch rest ih =>
    rw [searchBranch, searchBranch]
    split
    · rfl
    · simp only
      -- all that counts is whether the branch is met, so that it may add names for floating-point
      -- numbers
      rcases (meetDirect_agree h 1 _ (.always _ branch)).cases with
        ⟨e, hp, hq⟩ | ⟨v, w, hp, hq, -⟩
      · rw [hp, hq]
        cases e with
        | fault f => rfl
        | error e => exact ih _ _
      · rw [hp, hq]

theorem chooseBranch_agree (h : ∀ n, (p n).Agree (q n)) (kind : Kind) (names : Names)
    (ns : Namespace) (branches : List Schema) :
    chooseBranch kind p names ns branches = chooseBranch kind q names ns branches := by
  unfold chooseBranch
  split
  · rfl
  · exact searchBranch_agree h ns names 0 branches

theorem meet_agree (h : ∀ n, (p n).Agree (q n)) (kind : Kind) :
    (meet kind p).Agree (meet kind q) := by
  intro loose names ns s hs
  cases s with
  | union branches =>
    rw [meet, meet, chooseBranch_agree h]
    cases hchoose : chooseBranch kind q names ns branches with
    | error e => exact .refl _
    | ok chosen =>
      obtain ⟨i, branch⟩ := chosen
      have hmem := List.mem_of_getElem? (chooseBranch_ok hchoose)
      have hbranch := hs.part fun h => Schema.hasFloat_of_branch hmem h
      refine (meetDirect_agree h 1 ns hbranch).bind fun v w hv => .ok ?_
      rw [view_union, view_union, hv]
  | _ => exact meetDirect_agree h 0 ns hs

end Meeting

/-! ## Values with parts -/

section Parts

variable {loose : Bool} {names : Names} {s : Schema}

theorem resolveItems_agree {ps qs : List Fitting} (h : List.Forall₂ Fitting.Agree ps qs)
    (hs : Covers loose names s) (ns : Namespace) :
    Agree (view loose) (resolveItems names ns s ps) (resolveItems names ns s qs) := by
  refine (Agree.mapM (h.imp fun p q hpq => hpq ns hs)).bind fun vs ws hvs => .ok ?_
  rw [view_array, view_array, hvs]

/-- Nothing of a floating-point number goes into bytes. -/
theorem resolveBytes_agree {ps qs : List Fitting} (h : List.Forall₂ Fitting.Agree ps qs) :
    resolveBytes ps = resolveBytes qs := by
  have hint : Covers false [] .int := fun _ => ⟨rfl, nofun⟩
  have hbytes : Agree (List.map id) (ps.mapM fun p => do toByte (← p [] none .int))
      (qs.mapM fun q => do toByte (← q [] none .int)) :=
    Agree.mapM (h.imp fun p q hpq => (hpq none hint).bind fun v w hv => congrArg _ (congrArg _ hv))
  rw [resolveBytes, resolveBytes, (by simpa [Agree] using hbytes : ps.mapM _ = qs.mapM _)]

theorem resolveEntries_agree {ps qs : List (String × Fitting)}
    (h : EntriesRelated Fitting.Agree ps qs) (hs : Covers loose names s) (ns : Namespace) :
    Agree (view loose) (resolveEntries names ns s ps) (resolveEntries names ns s qs) := by
  have hsteps : Agree (List.map (viewEntry loose))
      (ps.mapM fun p => do return (p.1, ← p.2 names ns s))
      (qs.mapM fun q => do return (q.1, ← q.2 names ns s)) :=
    Agree.mapM (h.imp fun p q hpq => (hpq.2 ns hs).bind fun v w hv => .ok (Prod.ext hpq.1 hv))
  refine hsteps.bind fun vs ws hvs => .ok ?_
  rw [view_map, view_map, hvs]

theorem resolveFields_agree {ps qs : List (String × Fitting)} {name : Name}
    {fields : List (Field Schema)} (h : EntriesRelated Fitting.Agree ps qs)
    (hs : Covers loose names (.record name fields)) (fallback : Fallback) (ns : Namespace) :
    Agree (view loose) (resolveFields fallback names ns fields ps)
      (resolveFields fallback names ns fields qs) := by
  refine (?steps : Agree (List.map (viewEntry loose)) _ _).bind fun vs ws hvs => .ok ?record
  case record => rw [view_record, view_record, hvs]
  case steps =>
    refine Agree.mapM (List.forall₂_same.mpr fun field hfield => ?_)
    have hfield := hs.part fun h => Schema.hasFloat_of_field hfield h
    have hrel := h.lookup field.name
    generalize ps.lookup field.name = p at hrel
    generalize qs.lookup field.name = q at hrel
    cases hrel with
    | none => exact .refl _
    | some hpq => exact (hpq ns hfield).bind fun v w hv => .ok (Prod.ext rfl hv)

end Parts

/-! ## All values -/

mutual

theorem plain_agree (fallback : Fallback) (v : Value) (layers : Nat) :
    (plain fallback v.oneZero layers).Agree (plain fallback v layers) := by
  intro loose names ns s hs
  have hleaf := resolveLeaf_agree (fun h => (hs h).1) v
  cases v with
  | array items =>
    cases s with
    | array schema =>
      have hschema : Covers loose names schema := hs.part id
      exact resolveItems_agree (fittings_agree fallback items) hschema ns
    | bytes => exact congrArg _ (resolveBytes_agree (fittings_agree fallback items))
    | _ => exact hleaf
  | map entries =>
    cases s with
    | map schema =>
      have hschema : Covers loose names schema := hs.part id
      exact resolveEntries_agree (entryFittings_agree fallback entries) hschema ns
    | record name fields =>
      exact resolveFields_agree (entryFittings_agree fallback entries) hs fallback ns
    | _ => exact hleaf
  | union i v =>
    cases layers with
    | zero => exact hleaf
    | succ layers => exact plain_agree fallback v layers ns hs
  | record entries =>
    cases s with
    | record name fields =>
      have hparts := List.forall₂_reverse_iff.mpr (entryFittings_agree fallback entries)
      exact resolveFields_agree hparts hs fallback ns
    | _ => exact hleaf
  | _ => exact hleaf

theorem fittings_agree (fallback : Fallback) (items : List Value) :
    List.Forall₂ Fitting.Agree (fittings fallback (itemsOneZero items))
      (fittings fallback items) := by
  cases items with
  | nil => exact .nil
  | cons v rest =>
    refine .cons ?_ (fittings_agree fallback rest)
    rw [content_oneZero, kind_oneZero]
    exact meet_agree (plain_agree fallback v) _

theorem entryFittings_agree (fallback : Fallback) (entries : List (String × Value)) :
    EntriesRelated Fitting.Agree (entryFittings fallback (entriesOneZero entries))
      (entryFittings fallback entries) := by
  cases entries with
  | nil => exact .nil
  | cons p rest =>
    refine .cons ⟨rfl, ?_⟩ (entryFittings_agree fallback rest)
    rw [content_oneZero, kind_oneZero]
    exact meet_agree (plain_agree fallback p.2) _

end

/-- A value meets a schema as it does with its negative zeros made positive. Defaults are not part
of it, and are the same in both results. -/
theorem fit_agree (fallback : Fallback) (v : Value) :
    (v.oneZero.fit fallback).Agree (v.fit fallback) := by
  rw [fit, content_oneZero, kind_oneZero]
  exact meet_agree (plain_agree fallback v) _

end Value
end RecordTape
