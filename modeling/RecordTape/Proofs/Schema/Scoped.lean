import RecordTape.Proofs.Schema.Rebinding
/-!
# Scoped schemas

Inside a namespace a name without one is ambiguous: binding gives it the namespace, and other walks
over the schema may not. A scoped schema has no such names. It binds to the same definitions in
every namespace it can stand in, and what it binds alone is bound alike wherever a part of it is
looked at again. `Settled` says so of a part: its definitions and references are those of the names
that the whole schema binds. All parts of a scoped schema are settled, and so is what its references
stand for (`Settled.of_find?`).
-/

namespace RecordTape

/-- A place outside of all namespaces is within every scope. -/
theorem Scope.none (bare : Bool) : Scope bare none := fun _ => rfl

namespace Schema

mutual

/-- Every name in the schema has a namespace of its own, or stands outside of all of them. The
schema itself stands outside if it is `bare`. -/
def isScoped (bare : Bool) : Schema → Bool
  | array items => isScoped bare items
  | map values => isScoped bare values
  | union branches => branchesScoped bare branches
  | record name fields => (bare || name.ns.isSome) && fieldsScoped name.ns.isNone fields
  | enum name .. => bare || name.ns.isSome
  | fixed name _ => bare || name.ns.isSome
  | ref name => bare || name.ns.isSome
  | _ => true

def branchesScoped (bare : Bool) : List Schema → Bool
  | [] => true
  | s :: rest => isScoped bare s && branchesScoped bare rest

def fieldsScoped (bare : Bool) : List (Field Schema) → Bool
  | [] => true
  | ⟨_, _, _, s⟩ :: rest => isScoped bare s && fieldsScoped bare rest

end

def scopedAlone (s : Schema) : Bool := s.isScoped s.ns.isNone

theorem branchesScoped_iff {bare : Bool} {branches : List Schema} :
    branchesScoped bare branches ↔ ∀ s ∈ branches, s.isScoped bare := by
  induction branches with
  | nil => simp [branchesScoped]
  | cons s rest ih => simp [branchesScoped, ih]

theorem fieldsScoped_iff {bare : Bool} {fields : List (Field Schema)} :
    fieldsScoped bare fields ↔ ∀ f ∈ fields, f.schema.isScoped bare := by
  induction fields with
  | nil => simp [fieldsScoped]
  | cons f rest ih => simp [fieldsScoped, ih]

/-- A schema whose own name has a namespace is scoped inside any other one. -/
theorem isScoped_of_ns {bare : Bool} {s : Schema} (h : s.isScoped bare) (hns : s.ns.isSome) :
    s.isScoped false := by
  cases s with
  | record name fields =>
    simp only [isScoped, Bool.and_eq_true] at h ⊢
    exact ⟨hns, h.2⟩
  | enum | fixed | ref => exact hns
  | _ => cases hns

/-- A definition is scoped where its own name is the namespace. -/
theorem isScoped_of_definedName {bare : Bool} {s : Schema} {name : Name} (h : s.isScoped bare)
    (hname : s.definedName = some name) : s.isScoped name.ns.isNone := by
  have hown : name.ns.isNone || name.ns.isSome := by cases name.ns <;> rfl
  cases s with
  | record n fields =>
    cases hname
    simp only [isScoped, Bool.and_eq_true] at h ⊢
    exact ⟨hown, h.2⟩
  | enum | fixed => cases hname; exact hown
  | _ => cases hname

/-- A definition is neither a reference nor a union. -/
theorem kind_of_definedName {s : Schema} {name : Name} (h : s.definedName = some name) :
    s.kind ≠ .ref ∧ s.kind ≠ .union := by
  cases s <;> first | cases h; done | exact ⟨by rintro ⟨⟩, by rintro ⟨⟩⟩

mutual

/-- A regular schema is scoped. -/
theorem isScoped_of_isRegular {strict bare : Bool} (s : Schema) (h : s.isRegular strict bare) :
    s.isScoped bare := by
  cases s with
  | array items => exact isScoped_of_isRegular items h
  | map values => exact isScoped_of_isRegular values h
  | union branches =>
    simp only [isRegular, Bool.and_eq_true] at h
    exact branchesScoped_of_branchesRegular branches h.2
  | record name fields =>
    simp only [isRegular, isScoped, Bool.and_eq_true] at h ⊢
    exact ⟨h.1, fieldsScoped_of_fieldsRegular fields h.2⟩
  | enum name symbols default =>
    simp only [isRegular, Bool.and_eq_true] at h
    exact h.1
  | fixed | ref => exact h
  | _ => rfl

theorem branchesScoped_of_branchesRegular {strict bare : Bool} (branches : List Schema)
    (h : branchesRegular strict bare branches) : branchesScoped bare branches := by
  cases branches with
  | nil => rfl
  | cons s rest =>
    simp only [branchesRegular, branchesScoped, Bool.and_eq_true] at h ⊢
    exact ⟨isScoped_of_isRegular s h.1, branchesScoped_of_branchesRegular rest h.2⟩

theorem fieldsScoped_of_fieldsRegular {strict bare : Bool} (fields : List (Field Schema))
    (h : fieldsRegular strict bare fields) : fieldsScoped bare fields := by
  cases fields with
  | nil => rfl
  | cons f rest =>
    simp only [fieldsRegular, fieldsScoped, Bool.and_eq_true] at h ⊢
    exact ⟨isScoped_of_isRegular f.schema h.1.1.1, fieldsScoped_of_fieldsRegular rest h.2⟩

end

end Schema

/-! ## More names -/

namespace Names

theorem mem_of_find? {names : Names} {name : Name} {s : Schema} (h : names.find? name = some s) :
    (name, s) ∈ names := by
  obtain ⟨l₁, l₂, rfl, -⟩ := List.lookup_eq_some_iff.mp h
  simp

/-- What the second names stand for, the first ones stand for as well. -/
def Extends (names names' : Names) : Prop := ∀ n s, names'.find? n = some s → names.find? n = some s

namespace Extends

theorem refl (names : Names) : names.Extends names := fun _ _ h => h

theorem trans {a b c : Names} (h : a.Extends b) (h' : b.Extends c) : a.Extends c :=
  fun n s hn => h n s (h' n s hn)

theorem below {names names' : Names} (h : names.Extends names') : names'.Below names := by
  intro n hn
  obtain ⟨s, hs⟩ := Option.isSome_iff_exists.mp hn
  exact Option.isSome_iff_exists.mpr ⟨s, h n s hs⟩

/-- Names behind others still stand for what they stood for, if they agree with those before. -/
theorem append {own names names' : Names} (hown : ∀ n s, own.find? n = some s →
    names'.find? n = some s) (h : names.Extends names') : Names.Extends (own ++ names) names' := by
  intro n s hn
  rw [Names.find?, List.lookup_append]
  cases hlookup : own.lookup n with
  | none => exact h n s hn
  | some t => exact hn.symm.trans (hown n t hlookup) ▸ rfl

end Extends

theorem extends_of_define {names names' : Names} {name : Name} {s : Schema}
    (h : names.define name s = .ok names') : names'.Extends names := by
  obtain ⟨hnew, rfl⟩ := define_eq_ok.mp h
  intro n t hn
  have hne : n ≠ name := by
    rintro rfl
    rw [Names.defines, hn] at hnew
    cases hnew
  rw [Names.find?, List.lookup_cons, beq_false_of_ne hne]
  exact hn

end Names

namespace Schema

section Bind

variable {known : Names}

mutual

/-- What was found before still stands for the same. -/
theorem extends_of_bind {ns : Namespace} {found found' : Names} (s : Schema)
    (h : bind known s ns found = .ok found') : found'.Extends found := by
  cases s with
  | array items => exact extends_of_bind items h
  | map values => exact extends_of_bind values h
  | union branches => exact extends_of_bindBranches branches h
  | record name fields =>
    rw [bind] at h
    obtain ⟨found₁, hdef, h⟩ := Outcome.bind_eq_ok.mp h
    exact (extends_of_bindFields fields h).trans (Names.extends_of_define hdef)
  | enum name symbols default => exact Names.extends_of_define h
  | fixed name size => exact Names.extends_of_define h
  | ref name =>
    simp only [bind] at h
    split at h <;> cases h
    exact .refl _
  | _ => cases h; exact .refl _

theorem extends_of_bindBranches {ns : Namespace} {found found' : Names} (branches : List Schema)
    (h : bindBranches known branches ns found = .ok found') : found'.Extends found := by
  cases branches with
  | nil => cases h; exact .refl _
  | cons s rest =>
    obtain ⟨found₁, h₁, h⟩ := Outcome.bind_eq_ok.mp h
    exact (extends_of_bindBranches rest h).trans (extends_of_bind s h₁)

theorem extends_of_bindFields {ns : Namespace} {found found' : Names} (fields : List (Field Schema))
    (h : bindFields known fields ns found = .ok found') : found'.Extends found := by
  cases fields with
  | nil => cases h; exact .refl _
  | cons f rest =>
    obtain ⟨found₁, h₁, h⟩ := Outcome.bind_eq_ok.mp h
    exact (extends_of_bindFields rest h).trans (extends_of_bind f.schema h₁)

end

/-! ## The definitions of a schema -/

mutual

/-- The definitions in a scoped schema, the latest one first. -/
def definitions : Schema → Names
  | array items => definitions items
  | map values => definitions values
  | union branches => branchDefinitions branches
  | record name fields => fieldDefinitions fields ++ [(name, record name fields)]
  | enum name symbols default => [(name, enum name symbols default)]
  | fixed name size => [(name, fixed name size)]
  | _ => []

def branchDefinitions : List Schema → Names
  | [] => []
  | s :: rest => branchDefinitions rest ++ definitions s

def fieldDefinitions : List (Field Schema) → Names
  | [] => []
  | ⟨_, _, _, s⟩ :: rest => fieldDefinitions rest ++ definitions s

end

mutual

/-- A scoped schema binds its definitions as they are, in every namespace. -/
theorem bind_eq_definitions {bare : Bool} {ns : Namespace} {found found' : Names} (s : Schema)
    (hs : s.isScoped bare) (hscope : Scope bare ns) (h : bind known s ns found = .ok found') :
    found' = definitions s ++ found := by
  cases s with
  | array items => exact bind_eq_definitions items hs hscope h
  | map values => exact bind_eq_definitions values hs hscope h
  | union branches => exact bindBranches_eq_definitions branches hs hscope h
  | record name fields =>
    simp only [isScoped, Bool.and_eq_true] at hs
    simp only [bind, Name.qualify_of_regular hscope hs.1] at h
    obtain ⟨found₁, hdef, h⟩ := Outcome.bind_eq_ok.mp h
    obtain ⟨-, rfl⟩ := Names.define_eq_ok.mp hdef
    rw [definitions, List.append_assoc]
    exact bindFields_eq_definitions fields hs.2 (Scope.named name) h
  | enum name | fixed name =>
    simp only [bind, Name.qualify_of_regular hscope hs] at h
    exact (Names.define_eq_ok.mp h).2
  | ref name =>
    simp only [bind] at h
    split at h <;> cases h
    rfl
  | _ => cases h; rfl

theorem bindBranches_eq_definitions {bare : Bool} {ns : Namespace} {found found' : Names}
    (branches : List Schema) (hs : branchesScoped bare branches) (hscope : Scope bare ns)
    (h : bindBranches known branches ns found = .ok found') :
    found' = branchDefinitions branches ++ found := by
  cases branches with
  | nil => cases h; rfl
  | cons s rest =>
    simp only [branchesScoped, Bool.and_eq_true] at hs
    obtain ⟨found₁, h₁, h⟩ := Outcome.bind_eq_ok.mp h
    rw [bindBranches_eq_definitions rest hs.2 hscope h, bind_eq_definitions s hs.1 hscope h₁,
      branchDefinitions, List.append_assoc]

theorem bindFields_eq_definitions {bare : Bool} {ns : Namespace} {found found' : Names}
    (fields : List (Field Schema)) (hs : fieldsScoped bare fields) (hscope : Scope bare ns)
    (h : bindFields known fields ns found = .ok found') :
    found' = fieldDefinitions fields ++ found := by
  cases fields with
  | nil => cases h; rfl
  | cons f rest =>
    simp only [fieldsScoped, Bool.and_eq_true] at hs
    obtain ⟨found₁, h₁, h⟩ := Outcome.bind_eq_ok.mp h
    rw [bindFields_eq_definitions rest hs.2 hscope h, bind_eq_definitions f.schema hs.1 hscope h₁,
      fieldDefinitions, List.append_assoc]

end

mutual

theorem definedName_of_mem {p : Name × Schema} (s : Schema) (h : p ∈ definitions s) :
    p.2.definedName = some p.1 := by
  cases s with
  | array items => exact definedName_of_mem items h
  | map values => exact definedName_of_mem values h
  | union branches => exact definedName_of_mem_branches branches h
  | record name fields =>
    rcases List.mem_append.mp h with h | h
    · exact definedName_of_mem_fields fields h
    · cases List.mem_singleton.mp h; rfl
  | enum | fixed => cases List.mem_singleton.mp h; rfl
  | _ => cases h

theorem definedName_of_mem_branches {p : Name × Schema} (branches : List Schema)
    (h : p ∈ branchDefinitions branches) : p.2.definedName = some p.1 := by
  cases branches with
  | nil => cases h
  | cons s rest =>
    rcases List.mem_append.mp h with h | h
    · exact definedName_of_mem_branches rest h
    · exact definedName_of_mem s h

theorem definedName_of_mem_fields {p : Name × Schema} (fields : List (Field Schema))
    (h : p ∈ fieldDefinitions fields) : p.2.definedName = some p.1 := by
  cases fields with
  | nil => cases h
  | cons f rest =>
    rcases List.mem_append.mp h with h | h
    · exact definedName_of_mem_fields rest h
    · exact definedName_of_mem f.schema h

end

mutual

/-- Where a scoped schema stands makes no difference to what it binds. -/
theorem bind_scope {bare : Bool} {ns : Namespace} (s : Schema) (hs : s.isScoped bare)
    (hscope : Scope bare ns) (found : Names) : bind known s ns found = bind known s none found := by
  have hnone := Scope.none bare
  cases s with
  | array items => exact bind_scope items hs hscope found
  | map values => exact bind_scope values hs hscope found
  | union branches => exact bindBranches_scope branches hs hscope found
  | record name fields =>
    simp only [isScoped, Bool.and_eq_true] at hs
    simp only [bind, Name.qualify_of_regular hscope hs.1, Name.qualify_of_regular hnone hs.1]
  | enum name | fixed name | ref name =>
    simp only [bind, Name.qualify_of_regular hscope hs, Name.qualify_of_regular hnone hs]
  | _ => rfl

theorem bindBranches_scope {bare : Bool} {ns : Namespace} (branches : List Schema)
    (hs : branchesScoped bare branches) (hscope : Scope bare ns) (found : Names) :
    bindBranches known branches ns found = bindBranches known branches none found := by
  cases branches with
  | nil => rfl
  | cons s rest =>
    simp only [branchesScoped, Bool.and_eq_true] at hs
    rw [bindBranches, bindBranches, bind_scope s hs.1 hscope]
    exact bind_congr fun found₁ => bindBranches_scope rest hs.2 hscope found₁

end

/-! ## Parts -/

/-- Each branch of a union was bound at some point, and what was found then is still found. -/
theorem bind_of_mem_branches {ns : Namespace} {found found' : Names} {branches : List Schema}
    {s : Schema} (h : bindBranches known branches ns found = .ok found') (hs : s ∈ branches) :
    ∃ f f', bind known s ns f = .ok f' ∧ found'.Extends f' := by
  induction branches generalizing found with
  | nil => cases hs
  | cons b rest ih =>
    obtain ⟨found₁, h₁, hrest⟩ := Outcome.bind_eq_ok.mp h
    rcases List.mem_cons.mp hs with rfl | hs
    · exact ⟨found, found₁, h₁, extends_of_bindBranches rest hrest⟩
    · exact ih hrest hs

theorem bind_of_mem_fields {ns : Namespace} {found found' : Names} {fields : List (Field Schema)}
    {field : Field Schema} (h : bindFields known fields ns found = .ok found')
    (hfield : field ∈ fields) :
    ∃ f f', bind known field.schema ns f = .ok f' ∧ found'.Extends f' := by
  induction fields generalizing found with
  | nil => cases hfield
  | cons g rest ih =>
    obtain ⟨found₁, h₁, hrest⟩ := Outcome.bind_eq_ok.mp h
    rcases List.mem_cons.mp hfield with rfl | hfield
    · exact ⟨found, found₁, h₁, extends_of_bindFields rest hrest⟩
    · exact ih hrest hfield

end Bind

theorem Within.trans {a b c : Schema} (h : a.Within b) (h' : b.Within c) : a.Within c := by
  induction h' with
  | refl => exact h
  | items _ ih => exact .items ih
  | values _ ih => exact .values ih
  | branch hb _ ih => exact .branch hb ih
  | field hf _ ih => exact .field hf ih

/-- The schema is a scoped part of the whole, and `names` stand for what it defines and refers
to. -/
structure Settled (whole : Schema) (names : Names) (bare : Bool) (s : Schema) : Prop where
  isScoped : s.isScoped bare
  within : s.Within whole
  bound : ∃ found found', s.bind [] none found = .ok found' ∧ names.Extends found'

/-- The schema is scoped, and binds these names where it stands alone. -/
structure Binds (whole : Schema) (names : Names) : Prop where
  scopedAlone : whole.scopedAlone
  names_eq : whole.names = .ok names

namespace Settled

variable {whole s : Schema} {names : Names} {bare : Bool}

theorem alone (h : whole.Binds names) : Settled whole names whole.ns.isNone whole :=
  ⟨h.scopedAlone, .refl whole, [], names, h.names_eq, .refl names⟩

theorem items (h : Settled whole names bare (.array s)) : Settled whole names bare s :=
  ⟨h.isScoped, (Within.items (.refl s)).trans h.within, h.bound⟩

theorem values (h : Settled whole names bare (.map s)) : Settled whole names bare s :=
  ⟨h.isScoped, (Within.values (.refl s)).trans h.within, h.bound⟩

theorem branch {branches : List Schema} (h : Settled whole names bare (.union branches))
    (hs : s ∈ branches) : Settled whole names bare s := by
  obtain ⟨found, found', hbind, hextends⟩ := h.bound
  obtain ⟨f, f', hb, hf⟩ := bind_of_mem_branches hbind hs
  exact ⟨branchesScoped_iff.mp h.isScoped s hs, (Within.branch hs (.refl s)).trans h.within,
    f, f', hb, hextends.trans hf⟩

/-- The name of a record is one of its scope, and its fields are scoped inside of it. -/
theorem record {name : Name} {fields : List (Field Schema)}
    (h : Settled whole names bare (.record name fields)) :
    (bare || name.ns.isSome) ∧ fieldsScoped name.ns.isNone fields := by
  have hscoped := h.isScoped
  simp only [Schema.isScoped, Bool.and_eq_true] at hscoped
  exact hscoped

theorem field {name : Name} {fields : List (Field Schema)} {f : Field Schema}
    (h : Settled whole names bare (.record name fields)) (hf : f ∈ fields) :
    Settled whole names name.ns.isNone f.schema := by
  obtain ⟨found, found', hbind, hextends⟩ := h.bound
  have hscopedField := fieldsScoped_iff.mp h.record.2 f hf
  simp only [bind, Name.qualify_of_regular (.none bare) h.record.1] at hbind
  obtain ⟨found₁, -, hbind⟩ := Outcome.bind_eq_ok.mp hbind
  obtain ⟨g, g', hg, hg'⟩ := bind_of_mem_fields hbind hf
  rw [bind_scope f.schema hscopedField (Scope.named name)] at hg
  exact ⟨hscopedField, (Within.field hf (.refl f.schema)).trans h.within, g, g', hg,
    hextends.trans hg'⟩

theorem of_ns (h : Settled whole names bare s) (hns : s.ns.isSome) : Settled whole names false s :=
  ⟨isScoped_of_ns h.isScoped hns, h.within, h.bound⟩

/-- Every part is settled. -/
theorem of_within {t : Schema} (h : Settled whole names bare s) (hin : t.Within s) :
    ∃ bare', Settled whole names bare' t := by
  induction hin generalizing bare with
  | refl => exact ⟨bare, h⟩
  | items _ ih => exact ih h.items
  | values _ ih => exact ih h.values
  | branch hb _ ih => exact ih (h.branch hb)
  | field hf _ ih => exact ih (h.field hf)

/-- The name of a reference stands for something. -/
theorem find? {name : Name} (h : Settled whole names bare (.ref name)) :
    ∃ target, names.find? name = some target := by
  obtain ⟨found, found', hbind, hextends⟩ := h.bound
  simp only [bind, Name.qualify_of_regular (.none bare) h.isScoped] at hbind
  split at hbind
  · rename_i hdefined
    cases hbind
    obtain ⟨target, htarget⟩ : ∃ target, found.find? name = some target := by
      simpa [Names.defines, Names.find?, Option.isSome_iff_exists] using hdefined
    exact ⟨target, hextends name target htarget⟩
  · cases hbind

/-- A settled schema binds alone, wherever it stands and whatever else is known; this adds nothing
that the names do not stand for. -/
theorem bind_eq {ns : Namespace} {names' : Names} (h : Settled whole names bare s)
    (hscope : Scope bare ns) (hnames : names'.Extends names) :
    s.bind names' ns [] = .ok (definitions s) ∧ Names.Extends (definitions s ++ names') names := by
  obtain ⟨found, found', hbind, hextends⟩ := h.bound
  have hown := bind_eq_definitions s h.isScoped (.none bare) hbind
  have hbelow : found'.Below names' := (hnames.trans hextends).below
  have hnone (found : Names) : Names.Below [] found := by nofun
  obtain ⟨fresh, hfresh, -⟩ := bind_again s hbind (hnone found) hbelow (hnone names')
  have heq := bind_eq_definitions s h.isScoped (.none bare) hfresh
  rw [List.append_nil] at heq
  subst heq
  refine ⟨(bind_scope s h.isScoped hscope []).trans hfresh, .append (fun n t hn => ?_) hnames⟩
  refine hextends n t ?_
  rw [hown, Names.find?, List.lookup_append, show (definitions s).lookup n = some t from hn]
  rfl

/-- What a reference stands for is settled, inside the namespace of its name. -/
theorem of_find? {name : Name} (hwhole : whole.Binds names) (h : names.find? name = some s) :
    s.definedName = some name ∧ Settled whole names name.ns.isNone s := by
  have hmem := Names.mem_of_find? h
  have halone := alone hwhole
  have hbind := (bind_scope whole halone.isScoped (Scope.alone whole) []).trans hwhole.names_eq
  have hdefinitions := bind_eq_definitions whole halone.isScoped (Scope.alone whole) hbind
  rw [List.append_nil] at hdefinitions
  have hname : s.definedName = some name := definedName_of_mem whole (hdefinitions ▸ hmem)
  obtain ⟨bare, hpart⟩ := halone.of_within (within_of_names hwhole.names_eq _ hmem).1
  exact ⟨hname, isScoped_of_definedName hpart.isScoped hname, hpart.within, hpart.bound⟩

end Settled

end Schema
end RecordTape
