import Mathlib.Logic.Relation
import RecordTape.Proofs.Schema.Regular
/-!
# Levels without bytes

Reading a value takes a level for each schema it passes. A union or a collection has a byte of its
own; a record and a reference have none, so any number of these may follow one another for one byte.
None of them comes twice, though: a schema that holds itself with no byte in between has no value
(`not_hasForm_of_cycle`). What the definitions not yet passed can add is what is spare
(`spare_cons`).
-/

namespace RecordTape

namespace Schema

/-- A value of the first schema holds one of the second with no byte before it. -/
inductive Inlines (names : Names) : Schema → Schema → Prop
  | field {name : Name} {fields : List (Field Schema)} {f : Field Schema} :
    f ∈ fields → Inlines names (.record name fields) f.schema
  | ref {name : Name} {target : Schema} :
    names.find? name = some target → Inlines names (.ref name) target

/-- Twice the size of a value, and one more where a reference stands for its schema. -/
noncomputable def rank : Schema → Value → Nat
  | ref _, v => 2 * sizeOf v + 1
  | _, v => 2 * sizeOf v

theorem rank_le (s : Schema) (v : Value) : rank s v ≤ 2 * sizeOf v + 1 := by
  cases s <;> simp [rank]

variable {names : Names} {strict : Bool} {depth : Nat} {sized : Bool}

/-- Each step inwards finds a value of lower rank. -/
theorem Inlines.lower (hnames : names.Regular strict depth) {s t : Schema} (hst : Inlines names s t)
    {v : Value} (h : Value.HasForm sized names s v) :
    ∃ w, Value.HasForm sized names t w ∧ rank t w < rank s v := by
  cases hst with
  | @field name fields f hf =>
    cases h with
    | @record _ _ entries heq hform =>
      obtain ⟨p, hp, hmem⟩ := Value.HasForm.exists_entry heq hf
      refine ⟨p.2, hform _ hmem, ?_⟩
      have hsize := List.sizeOf_lt_of_mem hp
      have hpair : sizeOf p.2 < sizeOf p := by
        obtain ⟨k, w⟩ := p
        show sizeOf w < sizeOf (k, w)
        rw [Prod.mk.sizeOf_spec]
        omega
      have hrank := rank_le f.schema p.2
      show _ < 2 * sizeOf (Value.record entries)
      rw [Value.record.sizeOf_spec]
      omega
  | ref hf =>
    cases h with
    | ref hf' h =>
      cases hf.symm.trans hf'
      refine ⟨v, h, ?_⟩
      obtain ⟨hd, -⟩ := hnames.find? hf
      cases t <;> simp_all [rank, definedName]

theorem lower_of_path (hnames : names.Regular strict depth) {s t : Schema}
    (hst : Relation.TransGen (Inlines names) s t) {v : Value}
    (h : Value.HasForm sized names s v) :
    ∃ w, Value.HasForm sized names t w ∧ rank t w < rank s v := by
  induction hst with
  | single hstep => exact hstep.lower hnames h
  | tail _ hstep ih =>
    obtain ⟨w, hw, hlt⟩ := ih
    obtain ⟨u, hu, hlt'⟩ := hstep.lower hnames hw
    exact ⟨u, hu, by omega⟩

/-- A schema that holds itself with no byte in between has no value: each would hold another one
of lower rank. -/
theorem not_hasForm_of_cycle (hnames : names.Regular strict depth) {s : Schema}
    (hcycle : Relation.TransGen (Inlines names) s s) (v : Value) :
    ¬ Value.HasForm sized names s v := by
  induction hr : rank s v using Nat.strongRecOn generalizing v with
  | ind r ih =>
    intro h
    obtain ⟨w, hw, hlt⟩ := lower_of_path hnames hcycle h
    exact ih _ (hr ▸ hlt) w rfl hw

end Schema

namespace Names

/-- What the definitions of names that are not used can add to the depth. -/
def spare (names : Names) (used : List Name) : Nat :=
  total (·.depth + 1) (names.filter fun p => p.1 ∉ used)

theorem spare_nil (names : Names) : names.spare [] = names.total (·.depth + 1) := by
  simp [spare]

/-- A definition that is not used counts, a used one does not. -/
theorem spare_head (p : Name × Schema) (rest : Names) (used : List Name) :
    spare (p :: rest) used =
      (if p.1 ∈ used then 0 else p.2.depth + 1) + spare rest used := by
  obtain ⟨name, s⟩ := p
  unfold spare
  by_cases h : name ∈ used
  · simp [h]
  · simp [h, total]

theorem spare_anti (names : Names) (name : Name) (used : List Name) :
    names.spare (name :: used) ≤ names.spare used := by
  induction names with
  | nil => exact Nat.le_refl _
  | cons p rest ih =>
    rw [spare_head, spare_head]
    by_cases h : p.1 ∈ used
    · rw [if_pos (List.mem_cons_of_mem _ h), if_pos h]
      omega
    · rw [if_neg h]
      split <;> omega

/-- Using a name takes the depth of its definition from what is spare. -/
theorem spare_cons {names : Names} {name : Name} {target : Schema} {used : List Name}
    (hmem : (name, target) ∈ names) (hnew : name ∉ used) :
    names.spare (name :: used) + target.depth + 1 ≤ names.spare used := by
  induction names with
  | nil => cases hmem
  | cons p rest ih =>
    rw [spare_head, spare_head]
    rcases List.mem_cons.mp hmem with rfl | hmem
    · have := spare_anti rest name used
      rw [if_pos List.mem_cons_self, if_neg hnew]
      simp only
      omega
    · have := ih hmem
      by_cases h : p.1 ∈ used
      · rw [if_pos (List.mem_cons_of_mem _ h), if_pos h]
        omega
      · rw [if_neg h]
        split <;> omega

end Names
end RecordTape
