import RecordTape.Proofs.Outcome
import RecordTape.Proofs.Schema.Regular
import RecordTape.Schema.Binding
/-!
# Parts of schemas

Everything that binding finds is a definition that stands somewhere in the schema
(`Schema.within_of_names`). So what holds of all parts of a schema holds of what its references
stand for.
-/

namespace RecordTape

namespace Schema

/-- The first schema stands somewhere in the second one, or is it. What a reference stands for does
not count. -/
inductive Within : Schema → Schema → Prop
  | refl (s : Schema) : Within s s
  | items {s items : Schema} : Within s items → Within s (.array items)
  | values {s values : Schema} : Within s values → Within s (.map values)
  | branch {s b : Schema} {branches : List Schema} : b ∈ branches → Within s b →
      Within s (.union branches)
  | field {s : Schema} {name : Name} {f : Field Schema} {fields : List (Field Schema)} :
      f ∈ fields → Within s f.schema → Within s (.record name fields)

theorem mem_of_define {names names' : Names} {name : Name} {s : Schema} {p : Name × Schema}
    (h : names.define name s = .ok names') (hp : p ∈ names') : p ∈ names ∨ p = (name, s) := by
  unfold Names.define at h
  split at h
  · cases h
  · cases h
    exact (List.mem_cons.mp hp).symm

section Bind

variable {known : Names}

mutual

/-- What binding finds was found before, or is a definition in the schema. -/
theorem within_of_bind {ns : Namespace} {found found' : Names} (s : Schema)
    (h : bind known s ns found = .ok found') :
    ∀ p ∈ found', p ∈ found ∨ p.2.Within s ∧ p.2.definedName.isSome := by
  intro p hp
  cases s with
  | array items => exact (within_of_bind items h p hp).imp_right (.imp_left .items)
  | map values => exact (within_of_bind values h p hp).imp_right (.imp_left .values)
  | union branches =>
    refine (within_of_bindBranches branches h p hp).imp_right ?_
    rintro ⟨b, hb, hin, hname⟩
    exact ⟨.branch hb hin, hname⟩
  | record name fields =>
    rw [bind] at h
    obtain ⟨found₁, hdef, h⟩ := Outcome.bind_eq_ok.mp h
    rcases within_of_bindFields fields h p hp with hp | ⟨f, hf, hin, hname⟩
    · refine (mem_of_define hdef hp).imp_right ?_
      rintro rfl
      exact ⟨.refl _, rfl⟩
    · exact .inr ⟨.field hf hin, hname⟩
  | enum name symbols default =>
    refine (mem_of_define h hp).imp_right ?_
    rintro rfl
    exact ⟨.refl _, rfl⟩
  | fixed name size =>
    refine (mem_of_define h hp).imp_right ?_
    rintro rfl
    exact ⟨.refl _, rfl⟩
  | ref name =>
    simp only [bind] at h
    split at h <;> cases h
    exact .inl hp
  | _ => cases h; exact .inl hp

theorem within_of_bindBranches {ns : Namespace} {found found' : Names} (branches : List Schema)
    (h : bindBranches known branches ns found = .ok found') :
    ∀ p ∈ found', p ∈ found ∨ ∃ b ∈ branches, p.2.Within b ∧ p.2.definedName.isSome := by
  intro p hp
  cases branches with
  | nil => cases h; exact .inl hp
  | cons s rest =>
    obtain ⟨found₁, h₁, h⟩ := Outcome.bind_eq_ok.mp h
    rcases within_of_bindBranches rest h p hp with hp | ⟨b, hb, hin⟩
    · exact (within_of_bind s h₁ p hp).imp_right fun hin => ⟨s, List.mem_cons_self, hin⟩
    · exact .inr ⟨b, List.mem_cons_of_mem _ hb, hin⟩

theorem within_of_bindFields {ns : Namespace} {found found' : Names} (fields : List (Field Schema))
    (h : bindFields known fields ns found = .ok found') :
    ∀ p ∈ found', p ∈ found ∨ ∃ f ∈ fields, p.2.Within f.schema ∧ p.2.definedName.isSome := by
  intro p hp
  cases fields with
  | nil => cases h; exact .inl hp
  | cons f rest =>
    obtain ⟨found₁, h₁, h⟩ := Outcome.bind_eq_ok.mp h
    rcases within_of_bindFields rest h p hp with hp | ⟨g, hg, hin⟩
    · exact (within_of_bind f.schema h₁ p hp).imp_right fun hin => ⟨f, List.mem_cons_self, hin⟩
    · exact .inr ⟨g, List.mem_cons_of_mem _ hg, hin⟩

end

end Bind

/-- The names of a schema stand for definitions in it. -/
theorem within_of_names {s : Schema} {names : Names} (h : s.names = .ok names) :
    ∀ p ∈ names, p.2.Within s ∧ p.2.definedName.isSome :=
  fun p hp => (within_of_bind s h p hp).resolve_left (by nofun)

/-! ## Kinds that occur -/

mutual

/-- All schemas in it are of kinds that are allowed. What a reference stands for does not count. -/
def only (allowed : Kind → Bool) : Schema → Bool
  | array items => allowed .array && only allowed items
  | map values => allowed .map && only allowed values
  | union branches => allowed .union && branchesOnly allowed branches
  | record _ fields => allowed .record && fieldsOnly allowed fields
  | s => allowed s.kind

def branchesOnly (allowed : Kind → Bool) : List Schema → Bool
  | [] => true
  | s :: rest => only allowed s && branchesOnly allowed rest

def fieldsOnly (allowed : Kind → Bool) : List (Field Schema) → Bool
  | [] => true
  | ⟨_, _, _, s⟩ :: rest => only allowed s && fieldsOnly allowed rest

end

section Only

variable {allowed : Kind → Bool}

theorem branchesOnly_iff {branches : List Schema} :
    branchesOnly allowed branches ↔ ∀ s ∈ branches, s.only allowed := by
  induction branches with
  | nil => simp [branchesOnly]
  | cons s rest ih => simp [branchesOnly, ih]

theorem fieldsOnly_iff {fields : List (Field Schema)} :
    fieldsOnly allowed fields ↔ ∀ f ∈ fields, f.schema.only allowed := by
  induction fields with
  | nil => simp [fieldsOnly]
  | cons f rest ih => simp [fieldsOnly, ih]

/-- The schema itself is of a kind that is allowed. -/
theorem allowed_of_only {s : Schema} (h : s.only allowed) : allowed s.kind := by
  cases s <;> simp only [only, Bool.and_eq_true] at h <;> first | exact h | exact h.1

theorem only_of_within {s t : Schema} (hin : t.Within s) (h : s.only allowed) :
    t.only allowed := by
  induction hin with
  | refl => exact h
  | items _ ih | values _ ih =>
    rw [only, Bool.and_eq_true] at h
    exact ih h.2
  | branch hb _ ih =>
    rw [only, Bool.and_eq_true] at h
    exact ih (branchesOnly_iff.mp h.2 _ hb)
  | field hf _ ih =>
    rw [only, Bool.and_eq_true] at h
    exact ih (fieldsOnly_iff.mp h.2 _ hf)

end Only

end Schema

/-- Whatever the names stand for has schemas of allowed kinds in it only. -/
def Names.Only (allowed : Kind → Bool) (names : Names) : Prop := ∀ p ∈ names, p.2.only allowed

theorem Names.only_nil (allowed : Kind → Bool) : Names.Only allowed [] := by nofun

theorem Names.Only.find? {allowed : Kind → Bool} {names : Names} (h : names.Only allowed)
    {name : Name} {s : Schema} (hfind : names.find? name = some s) : s.only allowed := by
  obtain ⟨l₁, l₂, rfl, -⟩ := List.lookup_eq_some_iff.mp hfind
  exact h (name, s) (by simp)

theorem Schema.names_only {allowed : Kind → Bool} {s : Schema} {names : Names}
    (hs : s.only allowed) (h : s.names = .ok names) : names.Only allowed :=
  fun p hp => only_of_within (within_of_names h p hp).1 hs

end RecordTape
