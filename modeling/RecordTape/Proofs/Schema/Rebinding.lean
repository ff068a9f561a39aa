import RecordTape.Proofs.Schema.Parts
/-!
# Binding once more

A schema that was bound can be bound again, on its own and among more names (`bind_again`): its
definitions do not clash when fewer were found before them, and its references are still defined.
So a branch of a union that binds is never in the way when the branches are searched.
-/

namespace RecordTape

namespace Names

/-- The second names define all that the first ones do. -/
def Below (names names' : Names) : Prop := ∀ n, names.defines n → names'.defines n

theorem Below.refl (names : Names) : names.Below names := fun _ h => h

theorem Below.trans {a b c : Names} (h : a.Below b) (h' : b.Below c) : a.Below c :=
  fun n hn => h' n (h n hn)

theorem defines_cons {names : Names} {p : Name × Schema} {n : Name} :
    Names.defines (p :: names) n ↔ n = p.1 ∨ names.defines n := by
  obtain ⟨name, s⟩ := p
  unfold Names.defines Names.find?
  rw [List.lookup_cons]
  cases hn : n == name with
  | true => simp [beq_iff_eq.mp hn]
  | false => simp [beq_eq_false_iff_ne.mp hn]

theorem below_append_left (names names' : Names) : names.Below (names' ++ names) := by
  intro n hn
  induction names' with
  | nil => exact hn
  | cons p rest ih => exact defines_cons.mpr (.inr ih)

theorem define_eq_ok {names names' : Names} {name : Name} {s : Schema} :
    names.define name s = .ok names' ↔
      names.defines name = false ∧ names' = (name, s) :: names := by
  unfold Names.define
  cases names.defines name with
  | true => exact ⟨nofun, nofun⟩
  | false => exact ⟨fun h => ⟨rfl, (Except.ok.inj h).symm⟩, fun h => congrArg Except.ok h.2.symm⟩

theorem below_of_define {names names' : Names} {name : Name} {s : Schema}
    (h : names.define name s = .ok names') : names.Below names' := by
  obtain ⟨-, rfl⟩ := define_eq_ok.mp h
  exact below_append_left names [(name, s)]

end Names

namespace Schema

section Again

variable {known known' : Names}

mutual

/-- What was found before is still found. -/
theorem below_of_bind {ns : Namespace} {found found' : Names} (s : Schema)
    (h : bind known s ns found = .ok found') : found.Below found' := by
  cases s with
  | array items => exact below_of_bind items h
  | map values => exact below_of_bind values h
  | union branches => exact below_of_bindBranches branches h
  | record name fields =>
    rw [bind] at h
    obtain ⟨found₁, hdef, h⟩ := Outcome.bind_eq_ok.mp h
    exact (Names.below_of_define hdef).trans (below_of_bindFields fields h)
  | enum name symbols default => exact Names.below_of_define h
  | fixed name size => exact Names.below_of_define h
  | ref name =>
    simp only [bind] at h
    split at h <;> cases h
    exact .refl _
  | _ => cases h; exact .refl _

theorem below_of_bindBranches {ns : Namespace} {found found' : Names} (branches : List Schema)
    (h : bindBranches known branches ns found = .ok found') : found.Below found' := by
  cases branches with
  | nil => cases h; exact .refl _
  | cons s rest =>
    obtain ⟨found₁, h₁, h⟩ := Outcome.bind_eq_ok.mp h
    exact (below_of_bind s h₁).trans (below_of_bindBranches rest h)

theorem below_of_bindFields {ns : Namespace} {found found' : Names} (fields : List (Field Schema))
    (h : bindFields known fields ns found = .ok found') : found.Below found' := by
  cases fields with
  | nil => cases h; exact .refl _
  | cons f rest =>
    obtain ⟨found₁, h₁, h⟩ := Outcome.bind_eq_ok.mp h
    exact (below_of_bind f.schema h₁).trans (below_of_bindFields rest h)

end

/-- A definition that did not clash does not clash where fewer are found before it. -/
theorem define_again {found found' fresh : Names} {name : Name} {s : Schema}
    (h : found.define name s = .ok found') (hfresh : fresh.Below found) :
    ∃ fresh', fresh.define name s = .ok fresh' ∧ fresh'.Below found' := by
  obtain ⟨hnew, rfl⟩ := Names.define_eq_ok.mp h
  refine ⟨(name, s) :: fresh, Names.define_eq_ok.mpr ⟨?_, rfl⟩, fun n hn => ?_⟩
  · rw [Bool.eq_false_iff] at hnew ⊢
    exact fun hn => hnew (hfresh name hn)
  · exact Names.defines_cons.mpr ((Names.defines_cons.mp hn).imp_right (hfresh n))

mutual

/-- A schema that was bound is bound again among names that define all that was found and known,
where no more is found before it. -/
theorem bind_again {ns : Namespace} {found found' fresh : Names} (s : Schema)
    (h : bind known s ns found = .ok found') (hfresh : fresh.Below found)
    (hfound : found'.Below known') (hknown : known.Below known') :
    ∃ fresh', bind known' s ns fresh = .ok fresh' ∧ fresh'.Below found' := by
  cases s with
  | array items => exact bind_again items h hfresh hfound hknown
  | map values => exact bind_again values h hfresh hfound hknown
  | union branches => exact bindBranches_again branches h hfresh hfound hknown
  | record name fields =>
    rw [bind] at h
    obtain ⟨found₁, hdef, h⟩ := Outcome.bind_eq_ok.mp h
    obtain ⟨fresh₁, hdef', hfresh₁⟩ := define_again hdef hfresh
    obtain ⟨fresh', h', hbelow⟩ := bindFields_again fields h hfresh₁ hfound hknown
    refine ⟨fresh', ?_, hbelow⟩
    rw [bind]
    exact Outcome.bind_eq_ok.mpr ⟨fresh₁, hdef', h'⟩
  | enum name symbols default => exact define_again h hfresh
  | fixed name size => exact define_again h hfresh
  | ref name =>
    simp only [bind] at h ⊢
    split at h
    · rename_i hdefined
      cases h
      rw [Bool.or_eq_true] at hdefined
      have hdefined' : known'.defines (name.qualify ns) := hdefined.elim (hfound _) (hknown _)
      exact ⟨fresh, if_pos (by simp [hdefined']), hfresh⟩
    · cases h
  | _ => cases h; exact ⟨fresh, rfl, hfresh⟩

theorem bindBranches_again {ns : Namespace} {found found' fresh : Names} (branches : List Schema)
    (h : bindBranches known branches ns found = .ok found') (hfresh : fresh.Below found)
    (hfound : found'.Below known') (hknown : known.Below known') :
    ∃ fresh', bindBranches known' branches ns fresh = .ok fresh' ∧ fresh'.Below found' := by
  cases branches with
  | nil => cases h; exact ⟨fresh, rfl, hfresh⟩
  | cons s rest =>
    obtain ⟨found₁, h₁, h⟩ := Outcome.bind_eq_ok.mp h
    have hfound₁ := (below_of_bindBranches rest h).trans hfound
    obtain ⟨fresh₁, h₁', hfresh₁⟩ := bind_again s h₁ hfresh hfound₁ hknown
    obtain ⟨fresh', h', hbelow⟩ := bindBranches_again rest h hfresh₁ hfound hknown
    exact ⟨fresh', Outcome.bind_eq_ok.mpr ⟨fresh₁, h₁', h'⟩, hbelow⟩

theorem bindFields_again {ns : Namespace} {found found' fresh : Names}
    (fields : List (Field Schema)) (h : bindFields known fields ns found = .ok found')
    (hfresh : fresh.Below found) (hfound : found'.Below known') (hknown : known.Below known') :
    ∃ fresh', bindFields known' fields ns fresh = .ok fresh' ∧ fresh'.Below found' := by
  cases fields with
  | nil => cases h; exact ⟨fresh, rfl, hfresh⟩
  | cons f rest =>
    obtain ⟨found₁, h₁, h⟩ := Outcome.bind_eq_ok.mp h
    have hfound₁ := (below_of_bindFields rest h).trans hfound
    obtain ⟨fresh₁, h₁', hfresh₁⟩ := bind_again f.schema h₁ hfresh hfound₁ hknown
    obtain ⟨fresh', h', hbelow⟩ := bindFields_again rest h hfresh₁ hfound hknown
    exact ⟨fresh', Outcome.bind_eq_ok.mpr ⟨fresh₁, h₁', h'⟩, hbelow⟩

end

/-- Each branch of a union that was bound is bound again by itself. -/
theorem bind_branch_again {ns : Namespace} {found found' : Names} {branches : List Schema}
    (h : bindBranches known branches ns found = .ok found') (hfound : found'.Below known')
    (hknown : known.Below known') {s : Schema} (hs : s ∈ branches) :
    ∃ fresh, bind known' s ns [] = .ok fresh := by
  induction branches generalizing found with
  | nil => cases hs
  | cons b rest ih =>
    obtain ⟨found₁, h₁, hrest⟩ := Outcome.bind_eq_ok.mp h
    rcases List.mem_cons.mp hs with rfl | hs
    · have hfound₁ := (below_of_bindBranches rest hrest).trans hfound
      have hnone : Names.Below [] found := by nofun
      obtain ⟨fresh, hfresh, -⟩ := bind_again s h₁ hnone hfound₁ hknown
      exact ⟨fresh, hfresh⟩
    · exact ih hrest hs

end Again

end Schema
end RecordTape
