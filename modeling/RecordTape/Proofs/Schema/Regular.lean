import RecordTape.Proofs.Outcome
import RecordTape.Proofs.Value.Form
import RecordTape.Schema.Binding
import RecordTape.Value.Decode
/-!
# Regular schemas

A name without a namespace means one thing where a schema stands alone and may mean another inside a
namespace, and the walks over a schema do not agree there on which. Fields are looked up by their
names and aliases when a value is validated, and the last claim of a name wins. A regular schema has
no first difficulty: inside a namespace every name has one of its own. It has no second one if it is
strictly regular: no field takes the name of one before it, not as an alias either. The names that
such a schema binds are regular in the same way.
-/

namespace RecordTape

namespace Field

/-- Some of the fields go by the name, as their own or, where aliases count, as an alias. -/
def taken (strict : Bool) (name : String) (fields : List (Field Schema)) : Bool :=
  fields.any fun f => f.name = name || strict && f.aliases.contains name

def defaultWellFormed (f : Field Schema) : Bool :=
  match f.default with
  | none => true
  | some json => (Value.ofJson json).isWellFormed

end Field

namespace Schema

mutual

/-- The schema is regular in a scope, which has no namespace if it is `bare`. Counts are such that
positions in unions and enumerations fit the integers that are written for them. Aliases count as
names if it is `strict`. -/
def isRegular (strict bare : Bool) : Schema → Bool
  | array items => isRegular strict bare items
  | map values => isRegular strict bare values
  | union branches => branches.length < Capacity.limit && branchesRegular strict bare branches
  | record name fields => (bare || name.ns.isSome) && fieldsRegular strict name.ns.isNone fields
  | enum name symbols _ => (bare || name.ns.isSome) && (symbols.length : Int) ≤ int32Bound
  | fixed name _ => bare || name.ns.isSome
  | ref name => bare || name.ns.isSome
  | _ => true

def branchesRegular (strict bare : Bool) : List Schema → Bool
  | [] => true
  | s :: rest => isRegular strict bare s && branchesRegular strict bare rest

/-- All fields are regular, and none takes the name of one before it. -/
def fieldsRegular (strict bare : Bool) : List (Field Schema) → Bool
  | [] => true
  | ⟨name, aliases, default, s⟩ :: rest =>
    isRegular strict bare s && (Field.mk name aliases default s).defaultWellFormed &&
      !Field.taken strict name rest && fieldsRegular strict bare rest

end

def regularAlone (strict : Bool) (s : Schema) : Bool := s.isRegular strict s.ns.isNone

def definedName : Schema → Option Name
  | record name _ => some name
  | enum name .. => some name
  | fixed name _ => some name
  | _ => none

theorem branchesRegular_iff {strict bare : Bool} {branches : List Schema} :
    branchesRegular strict bare branches ↔ ∀ s ∈ branches, s.isRegular strict bare := by
  induction branches with
  | nil => simp [branchesRegular]
  | cons s rest ih => simp [branchesRegular, ih]

theorem regular_of_mem {strict bare : Bool} {fields : List (Field Schema)}
    (h : fieldsRegular strict bare fields) :
    ∀ f ∈ fields, f.schema.isRegular strict bare ∧ f.defaultWellFormed := by
  induction fields with
  | nil => simp
  | cons f rest ih =>
    simp only [fieldsRegular, Bool.and_eq_true] at h
    intro g hg
    rcases List.mem_cons.mp hg with rfl | hg
    · exact h.1.1
    · exact ih h.2 g hg

end Schema

/-! ## Scopes -/

/-- Where the scope is bare there is no namespace around. -/
def Scope (bare : Bool) (ns : Namespace) : Prop := bare → ns = none

namespace Name

/-- A name of a regular schema means the same in every namespace that its scope allows. -/
theorem qualify_of_regular {bare : Bool} {ns : Namespace} {name : Name} (hs : Scope bare ns)
    (h : bare || name.ns.isSome) : name.qualify ns = name := by
  obtain ⟨own, base⟩ := name
  cases own with
  | some own => rfl
  | none => rw [qualify, hs (by simpa using h)]; rfl

end Name

namespace Scope

theorem alone (s : Schema) : Scope s.ns.isNone s.ns := by
  intro h
  exact Option.isNone_iff_eq_none.mp h

/-- Behind a name the namespace is the name's own. -/
theorem named (name : Name) : Scope name.ns.isNone name.ns :=
  fun h => Option.isNone_iff_eq_none.mp h

/-- The namespace around a name may be kept behind it. -/
theorem kept {bare : Bool} {ns : Namespace} {name : Name} (hs : Scope bare ns)
    (h : bare || name.ns.isSome) : Scope name.ns.isNone ns := by
  intro hn
  apply hs
  rw [Option.isNone_iff_eq_none] at hn
  simpa [hn] using h

/-- The namespace of a name, or the one around it where it has none. -/
theorem within {bare : Bool} {ns : Namespace} {name : Name} (hs : Scope bare ns)
    (h : bare || name.ns.isSome) : Scope name.ns.isNone (name.ns <|> ns) := by
  intro hn
  have hnone := hs.kept h hn
  rw [Option.isNone_iff_eq_none] at hn
  rw [hn, hnone]
  rfl

end Scope

/-! ## Regular names -/

/-- The names stand for definitions of these names, which are regular and no deeper than `depth`. -/
def Names.Regular (strict : Bool) (depth : Nat) (names : Names) : Prop :=
  ∀ p ∈ names, p.2.definedName = some p.1 ∧ p.2.isRegular strict p.1.ns.isNone ∧ p.2.depth ≤ depth

namespace Names.Regular

variable {strict : Bool} {depth : Nat} {names : Names}

theorem find? (h : names.Regular strict depth) {name : Name} {target : Schema}
    (hf : names.find? name = some target) :
    target.definedName = some name ∧ target.isRegular strict name.ns.isNone ∧
      target.depth ≤ depth := by
  obtain ⟨l₁, l₂, rfl, -⟩ := List.lookup_eq_some_iff.mp hf
  exact h (name, target) (by simp)

theorem define (h : names.Regular strict depth) {name : Name} {s : Schema} {found : Names}
    (hname : s.definedName = some name) (hs : s.isRegular strict name.ns.isNone)
    (hd : s.depth ≤ depth) (hf : names.define name s = .ok found) : found.Regular strict depth := by
  unfold Names.define at hf
  split at hf
  · cases hf
  · cases hf
    intro p hp
    rcases List.mem_cons.mp hp with rfl | hp
    · exact ⟨hname, hs, hd⟩
    · exact h p hp

end Names.Regular

namespace Schema

variable {strict : Bool} {depth : Nat} {known : Names}

mutual

/-- Binding a regular schema finds regular names only. -/
theorem bind_regular {bare : Bool} {ns : Namespace} {found found' : Names} (s : Schema)
    (hs : s.isRegular strict bare) (hscope : Scope bare ns) (hd : s.depth ≤ depth)
    (hf : found.Regular strict depth) (h : bind known s ns found = .ok found') :
    found'.Regular strict depth := by
  cases s with
  | array items =>
    simp only [Schema.depth] at hd
    exact bind_regular items hs hscope (by omega) hf h
  | map values =>
    simp only [Schema.depth] at hd
    exact bind_regular values hs hscope (by omega) hf h
  | union branches =>
    simp only [Schema.depth] at hd
    simp only [isRegular, Bool.and_eq_true] at hs
    exact bindBranches_regular branches hs.2 hscope (by omega) hf h
  | record name fields =>
    have hnamed := hs
    simp only [isRegular, Bool.and_eq_true] at hs
    simp only [bind, Name.qualify_of_regular hscope hs.1] at h
    obtain ⟨found₁, hdef, h⟩ := Outcome.bind_eq_ok.mp h
    have hrec : (record name fields).isRegular strict name.ns.isNone := by
      simp only [isRegular, Bool.and_eq_true]
      exact ⟨by cases name.ns <;> rfl, hs.2⟩
    simp only [Schema.depth] at hd
    exact bindFields_regular fields hs.2 (Scope.named name) (by omega)
      (hf.define rfl hrec (by simpa only [Schema.depth] using hd) hdef) h
  | enum name symbols default =>
    simp only [isRegular, Bool.and_eq_true] at hs
    simp only [bind, Name.qualify_of_regular hscope hs.1] at h
    refine hf.define rfl ?_ hd h
    simp only [isRegular, Bool.and_eq_true]
    exact ⟨by cases name.ns <;> rfl, hs.2⟩
  | fixed name size =>
    simp only [isRegular] at hs
    simp only [bind, Name.qualify_of_regular hscope hs] at h
    refine hf.define rfl ?_ hd h
    simp only [isRegular]
    cases name.ns <;> rfl
  | ref name =>
    simp only [bind] at h
    split at h <;> cases h
    exact hf
  | _ => cases h; exact hf

theorem bindBranches_regular {bare : Bool} {ns : Namespace} {found found' : Names}
    (branches : List Schema) (hs : branchesRegular strict bare branches) (hscope : Scope bare ns)
    (hd : branchDepth branches ≤ depth) (hf : found.Regular strict depth)
    (h : bindBranches known branches ns found = .ok found') : found'.Regular strict depth := by
  cases branches with
  | nil => cases h; exact hf
  | cons s rest =>
    simp only [branchesRegular, Bool.and_eq_true] at hs
    simp only [branchDepth] at hd
    obtain ⟨found₁, h₁, h⟩ := Outcome.bind_eq_ok.mp h
    have hf₁ := bind_regular s hs.1 hscope (by omega) hf h₁
    exact bindBranches_regular rest hs.2 hscope (by omega) hf₁ h

theorem bindFields_regular {bare : Bool} {ns : Namespace} {found found' : Names}
    (fields : List (Field Schema)) (hs : fieldsRegular strict bare fields) (hscope : Scope bare ns)
    (hd : fieldDepth fields ≤ depth) (hf : found.Regular strict depth)
    (h : bindFields known fields ns found = .ok found') : found'.Regular strict depth := by
  cases fields with
  | nil => cases h; exact hf
  | cons f rest =>
    obtain ⟨name, aliases, default, s⟩ := f
    simp only [fieldsRegular, Bool.and_eq_true] at hs
    simp only [fieldDepth] at hd
    obtain ⟨found₁, h₁, h⟩ := Outcome.bind_eq_ok.mp h
    have hf₁ := bind_regular s hs.1.1.1 hscope (by omega) hf h₁
    exact bindFields_regular rest hs.2 hscope (by omega) hf₁ h

end

theorem isRegular_true {s : Schema} (hs : s.regularAlone strict) : s.isRegular strict true := by
  cases s <;> simp_all [regularAlone, isRegular, ns]

/-- The names of a regular schema that stands alone are regular. -/
theorem names_regular {s : Schema} {names : Names} (hs : s.regularAlone strict)
    (h : s.names = .ok names) :
    names.Regular strict s.depth :=
  bind_regular s (isRegular_true hs) (fun _ => rfl) (Nat.le_refl _) (by intro p hp; cases hp) h

end Schema
end RecordTape
