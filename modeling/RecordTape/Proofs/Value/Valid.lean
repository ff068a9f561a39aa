import RecordTape.Proofs.Value.Resolved
import RecordTape.Value.Validate
/-!
# What validation adds

Resolution leaves the size of fixed bytes open. A value that has the form of a regular schema and
passes validation has its fixed bytes in the size of the schema as well. For the fields of a record
this rests on `directory_lookup`: under a regular schema a field is found by its name.
-/

namespace RecordTape

namespace Field

/-- The names that a field goes by, each with the field. -/
theorem lookup_claims {f g : Field Schema} {name : String}
    (h : ((f.name, f) :: f.aliases.map (·, f)).reverse.lookup name = some g) :
    g = f ∧ taken true name [f] := by
  obtain ⟨l₁, l₂, hl, -⟩ := List.lookup_eq_some_iff.mp h
  have hmem : (name, g) ∈ (f.name, f) :: f.aliases.map (·, f) := by
    rw [← List.mem_reverse, hl]; simp
  rcases List.mem_cons.mp hmem with heq | hmem
  · cases heq
    exact ⟨rfl, by simp [taken]⟩
  · obtain ⟨a, ha, heq⟩ := List.mem_map.mp hmem
    cases heq
    exact ⟨rfl, by simp [taken, ha]⟩

theorem lookup_own (f : Field Schema) :
    ((f.name, f) :: f.aliases.map (·, f)).reverse.lookup f.name = some f := by
  cases h : ((f.name, f) :: f.aliases.map (·, f)).reverse.lookup f.name with
  | some g => rw [(lookup_claims h).1]
  | none =>
    have := List.lookup_eq_none_iff.mp h (f.name, f) (by simp)
    simp at this

theorem directory_cons (f : Field Schema) (rest : List (Field Schema)) :
    directory (f :: rest) =
      directory rest ++ ((f.name, f) :: f.aliases.map (·, f)).reverse := by
  simp [directory]

theorem taken_of_lookup {name : String} {fields : List (Field Schema)} {g : Field Schema}
    (h : (directory fields).lookup name = some g) : taken true name fields := by
  induction fields with
  | nil => cases h
  | cons f rest ih =>
    rw [directory_cons, List.lookup_append] at h
    rcases Option.or_eq_some_iff.mp h with h | ⟨-, h⟩
    · simpa [taken] using Or.inr (ih h)
    · have := (lookup_claims h).2
      simp_all [taken]

/-- Under a regular schema a field is found by its name. -/
theorem directory_lookup {bare : Bool} {fields : List (Field Schema)}
    (hs : Schema.fieldsRegular true bare fields) {f : Field Schema} (hf : f ∈ fields) :
    (directory fields).lookup f.name = some f := by
  induction fields with
  | nil => cases hf
  | cons g rest ih =>
    simp only [Schema.fieldsRegular, Bool.and_eq_true, Bool.not_eq_true'] at hs
    rw [directory_cons, List.lookup_append]
    rcases List.mem_cons.mp hf with rfl | hf
    · have hnone : (directory rest).lookup f.name = none := by
        cases h : (directory rest).lookup f.name with
        | none => rfl
        | some g => rw [taken_of_lookup h] at hs; simp at hs
      rw [hnone, Option.none_or]
      exact lookup_own f
    · rw [ih hs.2 hf]
      rfl

end Field

namespace Value

variable {fallback : Fallback} {names : Names}

/-! ## Checks of parts -/

theorem checks_eq (fallback : Fallback) (items : List Value) :
    checks fallback items = items.map (issues fallback) := by
  induction items with
  | nil => rfl
  | cons v rest ih => rw [checks, ih]; rfl

theorem entryChecks_eq (fallback : Fallback) (entries : List (String × Value)) :
    entryChecks fallback entries = entries.map fun p => (p.1, issues fallback p.2) := by
  induction entries with
  | nil => rfl
  | cons p rest ih => rw [entryChecks, ih]; rfl

/-- Checks of parts find nothing only if none of them does. -/
theorem noIssues_of_mapM {α : Type} {check : α → Except Fault (List Issue)} {parts : List α}
    (h : (do return (← parts.mapM check).flatten) = (.ok [] : Except Fault (List Issue))) :
    ∀ part ∈ parts, check part = .ok [] := by
  obtain ⟨found, hfound, h⟩ := Outcome.bind_eq_ok.mp h
  have hempty := List.flatten_eq_nil_iff.mp (Except.ok.inj h)
  have hall := Outcome.mapM_eq_ok.mp hfound
  intro part hpart
  obtain ⟨i, hi, rfl⟩ := List.mem_iff_getElem.mp hpart
  have hi' : i < found.length := by rw [← hall.length_eq]; exact hi
  rw [← hempty _ (List.getElem_mem hi')]
  exact hall.get hi hi'

/-- A reference is checked as its definition. -/
theorem checkThrough_ref {inUnion direct : Check} {ns : Namespace} {name : Name} {target : Schema}
    (hq : name.qualify ns = name) (hf : names.find? name = some target)
    (hd : target.definedName = some name) :
    checkThrough inUnion direct names ns (.ref name) =
      checkThrough inUnion direct names name.ns target := by
  cases target <;> simp_all [checkThrough, Schema.definedName]

theorem issues_ref {ns : Namespace} {name : Name} {target : Schema}
    (hq : name.qualify ns = name) (hf : names.find? name = some target)
    (hd : target.definedName = some name) (v : Value) :
    issues fallback v names ns (.ref name) = issues fallback v names name.ns target := by
  cases v <;> simp only [issues, checkThrough_ref hq hf hd]

/-! ## Values without issues -/

/-- The fields of a record without issues have none under the schemas of these fields. -/
theorem noIssues_of_fields {bare : Bool} {ns : Namespace} {fields : List (Field Schema)}
    {entries : List (String × Value)} (hs : Schema.fieldsRegular true bare fields)
    (hnames : entries.map (·.1) = fields.map (·.name))
    (h : fieldIssues names ns fields (entryChecks fallback entries) = .ok []) :
    ∀ p ∈ fields.zip entries, issues fallback p.2.2 names ns p.1.schema = .ok [] := by
  unfold fieldIssues at h
  simp only at h
  split at h
  · cases h
  · split at h
    · cases h
    · rw [entryChecks_eq] at h
      have hnone := noIssues_of_mapM h
      intro p hp
      obtain ⟨hfield, hentry⟩ := List.of_mem_zip hp
      have hpart := hnone (p.2.1, issues fallback p.2.2) (List.mem_map_of_mem hentry)
      simp only [HasForm.name_eq hnames hp, Field.directory_lookup hs hfield] at hpart
      exact hpart

theorem hasForm_of_issues {depth : Nat} {s : Schema} {v : Value} (h : HasForm false names s v)
    (hnames : names.Regular true depth) :
    ∀ {bare : Bool} {ns : Namespace}, s.isRegular true bare → Scope bare ns →
      issues fallback v names ns s = .ok [] → HasForm true names s v := by
  induction h with
  | null => intros; exact .null
  | boolean b => intros; exact .boolean b
  | int n => intros; exact .int n
  | long n => intros; exact .long n
  | float x => intros; exact .float x
  | double x => intros; exact .double x
  | bytes hb => intros; exact .bytes hb
  | string ht => intros; exact .string ht
  | enum hget hi => intros; exact .enum hget hi
  | decimal hb => intros; exact .decimal hb
  | uuid u => intros; exact .uuid u
  | intTime t n => intros; exact .intTime t n
  | longTime t n => intros; exact .longTime t n
  | duration hb => intros; exact .duration hb
  | fixed hb =>
    intro bare ns hs hscope hissues
    refine .fixed hb fun _ => ?_
    simp only [issues, checkThrough, leafIssues, issueUnless] at hissues
    by_contra hne
    simp only [hne, decide_false] at hissues
    cases hissues
  | array hlen _ ih =>
    intro bare ns hs hscope hissues
    simp only [issues, checkThrough, checks_eq] at hissues
    have hnone := noIssues_of_mapM hissues
    refine .array hlen fun v hv => ih v hv hs hscope (hnone _ (List.mem_map_of_mem hv))
  | map hlen hkeys htexts _ ih =>
    intro bare ns hs hscope hissues
    simp only [issues, checkThrough, entryChecks_eq] at hissues
    have hnone := noIssues_of_mapM hissues
    refine .map hlen hkeys htexts fun p hp => ?_
    exact ih p hp hs hscope (hnone _ (List.mem_map_of_mem hp))
  | union hget hi _ ih =>
    intro bare ns hs hscope hissues
    simp only [issues, checkThrough, hget] at hissues
    simp only [Schema.isRegular, Bool.and_eq_true] at hs
    have hbranch := Schema.branchesRegular_iff.mp hs.2 _ (List.mem_of_getElem? hget)
    exact .union hget hi (ih hbranch hscope hissues)
  | record heq _ ih =>
    intro bare ns hs hscope hissues
    simp only [issues, checkThrough] at hissues
    simp only [Schema.isRegular, Bool.and_eq_true] at hs
    have hnone := noIssues_of_fields hs.2 heq hissues
    refine .record heq fun p hp => ?_
    have hfield := (Schema.regular_of_mem hs.2 p.1 (List.of_mem_zip hp).1).1
    exact ih p hp hfield (hscope.within hs.1) (hnone p hp)
  | ref hf _ ih =>
    intro bare ns hs hscope hissues
    simp only [Schema.isRegular] at hs
    obtain ⟨hd, htarget, -⟩ := hnames.find? hf
    rw [issues_ref (Name.qualify_of_regular hscope hs) hf hd] at hissues
    exact .ref hf (ih htarget (Scope.named _) hissues)

end Value
end RecordTape
