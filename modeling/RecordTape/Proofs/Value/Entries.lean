import Mathlib.Data.List.Forall2
/-!
# Items and entries

The parts of a value stand in a list, those of maps and records under names. Two lists side by side
are related item by item, and entries if their names are the same as well (`EntriesRelated`). What
is found in one of them, by its index or its name, stands beside what is found in the other. Two
lists of entries that are the same but for those of one name are `EntriesBut`.
-/

namespace RecordTape.Value

/-! ## Entries of a name -/

section Lookup

variable {α : Type} {entries : List (String × α)} {name : String}

theorem mem_of_lookup {a : α} (h : entries.lookup name = some a) : (name, a) ∈ entries := by
  obtain ⟨l₁, l₂, rfl, -⟩ := List.lookup_eq_some_iff.mp h
  simp

/-- The entry of a name in a list whose names differ. -/
theorem lookup_of_mem {p : String × α} (hp : p ∈ entries) (hnodup : (entries.map (·.1)).Nodup) :
    entries.lookup p.1 = some p.2 := by
  induction entries with
  | nil => cases hp
  | cons q rest ih =>
    obtain ⟨k, a⟩ := q
    rw [List.map_cons, List.nodup_cons] at hnodup
    rcases List.mem_cons.mp hp with rfl | hp
    · simp
    · have hmem : p.1 ∈ rest.map (·.1) := List.mem_map_of_mem hp
      have hne : p.1 ≠ k := fun heq => hnodup.1 (heq ▸ hmem)
      rw [List.lookup_cons, beq_false_of_ne hne]
      exact ih hp hnodup.2

/-- In which order entries stand makes no difference to those whose names differ. -/
theorem lookup_perm {es fs : List (String × α)} (h : es.Perm fs) (hes : (es.map (·.1)).Nodup)
    (name : String) : es.lookup name = fs.lookup name := by
  cases hfs : fs.lookup name with
  | none =>
    rw [List.lookup_eq_none_iff] at hfs ⊢
    exact fun p hp => hfs p (h.mem_iff.mp hp)
  | some a => exact lookup_of_mem (p := (name, a)) (h.mem_iff.mpr (mem_of_lookup hfs)) hes

theorem lookup_map_snd {β : Type} (f : α → β) (entries : List (String × α)) (name : String) :
    (entries.map fun p => (p.1, f p.2)).lookup name = (entries.lookup name).map f := by
  induction entries with
  | nil => rfl
  | cons p rest ih =>
    rw [List.map_cons, List.lookup_cons, List.lookup_cons]
    split
    · rfl
    · exact ih

end Lookup

/-! ## Lists side by side -/

section Related

variable {σ τ : Type} {R : σ → τ → Prop}

theorem exists_right_of_rel {x : Option σ} {y : Option τ} {a : σ} (h : Option.Rel R x y)
    (hx : x = some a) : ∃ b, y = some b ∧ R a b := by
  cases h with
  | none => cases hx
  | some h => cases hx; exact ⟨_, rfl, h⟩

theorem exists_left_of_rel {x : Option σ} {y : Option τ} {b : τ} (h : Option.Rel R x y)
    (hy : y = some b) : ∃ a, x = some a ∧ R a b := by
  cases h with
  | none => cases hy
  | some h => cases hy; exact ⟨_, rfl, h⟩

theorem rel_getElem? {xs : List σ} {ys : List τ} (h : List.Forall₂ R xs ys) (i : Nat) :
    Option.Rel R xs[i]? ys[i]? := by
  induction h generalizing i with
  | nil => exact .none
  | cons hxy _ ih =>
    cases i with
    | zero => exact .some hxy
    | succ i => simpa only [List.getElem?_cons_succ] using ih i

/-- Two lists of entries with the same names, and values that are related one by one. -/
abbrev EntriesRelated (R : σ → τ → Prop) : List (String × σ) → List (String × τ) → Prop :=
  List.Forall₂ fun p q => p.1 = q.1 ∧ R p.2 q.2

namespace EntriesRelated

variable {ps : List (String × σ)} {qs : List (String × τ)}

theorem lookup (h : EntriesRelated R ps qs) (name : String) :
    Option.Rel R (ps.lookup name) (qs.lookup name) := by
  induction h with
  | nil => exact .none
  | @cons p q ps qs hpq _ ih =>
    rw [List.lookup_cons, List.lookup_cons, hpq.1]
    split
    · exact .some hpq.2
    · exact ih

theorem map_fst (h : EntriesRelated R ps qs) : ps.map (·.1) = qs.map (·.1) := by
  rw [← List.forall₂_eq_eq_eq, List.forall₂_map_left_iff, List.forall₂_map_right_iff]
  exact h.imp fun _ _ hpq => hpq.1

theorem mapValues {α β : Type} {f : α → σ} {g : β → τ} {as : List (String × α)}
    {bs : List (String × β)} (h : EntriesRelated (fun a b => R (f a) (g b)) as bs) :
    EntriesRelated R (as.map fun p => (p.1, f p.2)) (bs.map fun p => (p.1, g p.2)) := by
  rw [EntriesRelated, List.forall₂_map_left_iff, List.forall₂_map_right_iff]
  exact h

/-- Lists that have their names and their values in common have them entry by entry. -/
theorem of_maps (hnames : ps.map (·.1) = qs.map (·.1))
    (hvalues : List.Forall₂ R (ps.map (·.2)) (qs.map (·.2))) : EntriesRelated R ps qs := by
  rw [← List.forall₂_eq_eq_eq, List.forall₂_map_left_iff, List.forall₂_map_right_iff] at hnames
  rw [List.forall₂_map_left_iff, List.forall₂_map_right_iff] at hvalues
  rw [List.forall₂_iff_get] at hnames hvalues
  refine List.forall₂_iff_get.mpr ?_
  exact ⟨hnames.1, fun i h₁ h₂ => ⟨hnames.2 i h₁ h₂, hvalues.2 i h₁ h₂⟩⟩

end EntriesRelated

end Related

/-! ## Lists that are the same but for a name -/

/-- The same entries, but that those of the name may be related instead. -/
abbrev EntriesBut {α : Type} (R : α → α → Prop) (name : String) :
    List (String × α) → List (String × α) → Prop :=
  List.Forall₂ fun p p' => p.1 = p'.1 ∧ (p.2 = p'.2 ∨ p.1 = name ∧ R p.2 p'.2)

namespace EntriesBut

variable {α : Type} {R S : α → α → Prop} {name : String} {entries entries' : List (String × α)}

theorem refl (entries : List (String × α)) : EntriesBut R name entries entries :=
  List.forall₂_same.mpr fun _ _ => ⟨rfl, .inl rfl⟩

theorem map_fst (h : EntriesBut R name entries entries') :
    entries.map (·.1) = entries'.map (·.1) := by
  rw [← List.forall₂_eq_eq_eq, List.forall₂_map_left_iff, List.forall₂_map_right_iff]
  exact h.imp fun _ _ hp => hp.1

/-- The entries found by a name are the same, or there are two that are related. -/
theorem lookup (h : EntriesBut R name entries entries') (key : String) :
    entries'.lookup key = entries.lookup key ∨
      key = name ∧ ∃ v v', entries.lookup key = some v ∧ entries'.lookup key = some v' ∧
        R v v' := by
  induction h with
  | nil => exact .inl rfl
  | @cons p p' rest rest' hp _ ih =>
    rw [List.lookup_cons, List.lookup_cons, ← hp.1]
    cases hkey : key == p.1 with
    | false => exact ih
    | true =>
      rcases hp.2 with heq | ⟨hname, hpart⟩
      · exact .inl (congrArg some heq.symm)
      · exact .inr ⟨(beq_iff_eq.mp hkey).trans hname, p.2, p'.2, rfl, rfl, hpart⟩

/-- If the names differ, it is enough to know of the entry that is found by the name. -/
theorem imp_lookup (h : EntriesBut R name entries entries') (hnodup : (entries.map (·.1)).Nodup)
    (hRS : ∀ v v', entries.lookup name = some v → R v v' → S v v') :
    EntriesBut S name entries entries' := by
  have hfound : ∀ p ∈ entries, entries.lookup p.1 = some p.2 := fun p hp => lookup_of_mem hp hnodup
  refine ((List.forall₂_and_left entries entries').mpr ⟨hfound, h⟩).imp ?_
  rintro p p' ⟨hp, hkey, hvalue⟩
  exact ⟨hkey, hvalue.imp_right fun ⟨hname, hR⟩ => ⟨hname, hRS _ _ (hname ▸ hp) hR⟩⟩

end EntriesBut

end RecordTape.Value
