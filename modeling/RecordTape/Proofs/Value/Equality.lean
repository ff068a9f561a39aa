import RecordTape.Datum.Typed
/-!
# Equality of data

Equality of JSON values and of typed data is symmetric and transitive. It is not reflexive: typed
data may hold not-a-number, which equals nothing.
-/

namespace RecordTape

/-- Equality of data of a type is symmetric and transitive. Nothing is said of a datum and itself.
-/
structure PartialEquivalence (α : Type) [Datum α] : Prop where
  symm : ∀ {a b : α}, Datum.same a b → Datum.same b a
  trans : ∀ {a b c : α}, Datum.same a b → Datum.same b c → Datum.same a c

/-- A datum equals both of two equal data or none of them. -/
theorem PartialEquivalence.same_congr {α : Type} [Datum α] (h : PartialEquivalence α) {a b : α}
    (hab : Datum.same a b) (c : α) : Datum.same a c = Datum.same b c := by
  rw [Bool.eq_iff_iff]
  exact ⟨fun hac => h.trans (h.symm hab) hac, fun hbc => h.trans hab hbc⟩

namespace Binary

variable {f : FloatFormat} {x y z : Binary f}

/-- Numbers are equal if neither is not-a-number and they have the same bits or are both zero. -/
theorem same_iff :
    x.same y ↔ x.isNaN = false ∧ y.isNaN = false ∧ (x = y ∨ x.magnitude = 0 ∧ y.magnitude = 0) := by
  have hbits : x.bits = y.bits ↔ x = y := by
    obtain ⟨x⟩ := x
    obtain ⟨y⟩ := y
    exact ⟨congrArg mk, congrArg bits⟩
  simp only [same, Bool.and_eq_true, Bool.not_eq_true', Bool.or_eq_true, beq_iff_eq, hbits,
    and_assoc]

theorem same_symm (h : x.same y) : y.same x := by
  obtain ⟨hx, hy, hxy⟩ := same_iff.mp h
  exact same_iff.mpr ⟨hy, hx, hxy.imp Eq.symm And.symm⟩

theorem same_trans (h : x.same y) (h' : y.same z) : x.same z := by
  obtain ⟨hx, -, hxy⟩ := same_iff.mp h
  obtain ⟨-, hz, hyz⟩ := same_iff.mp h'
  refine same_iff.mpr ⟨hx, hz, ?_⟩
  rcases hxy with rfl | ⟨hx, hy⟩
  · exact hyz
  · rcases hyz with rfl | ⟨-, hz⟩
    · exact .inr ⟨hx, hy⟩
    · exact .inr ⟨hx, hz⟩

end Binary

/-! ## JSON values -/

namespace Json

/-- Equality read the other way round, on values and on their parts. -/
theorem parts_symm :
    (∀ a b, same a b → same b a) ∧
      (∀ as bs, sameMembers as bs → sameMembers bs as) ∧
      (∀ as bs, sameItems as bs → sameItems bs as) := by
  apply same.mutual_induct
  all_goals
    intros
    simp only [same, sameMembers, sameItems, Bool.and_eq_true, beq_iff_eq, Bool.false_eq_true] at *
  all_goals grind [Binary.same_symm]

/-- Equality handed on, on values and on their parts. The induction is on the first two; the third
is of the form of the second, or it is not equal to it. -/
theorem parts_trans :
    (∀ a b, same a b → ∀ c, same b c → same a c) ∧
      (∀ as bs, sameMembers as bs → ∀ cs, sameMembers bs cs → sameMembers as cs) ∧
      (∀ as bs, sameItems as bs → ∀ cs, sameItems bs cs → sameItems as cs) := by
  apply same.mutual_induct
  all_goals
    intros
    rename_i h c h'
    simp only [same, sameMembers, sameItems, Bool.and_eq_true, beq_iff_eq, Bool.false_eq_true] at h
  all_goals
    cases c <;>
    simp only [same, sameMembers, sameItems, Bool.and_eq_true, beq_iff_eq,
      Bool.false_eq_true] at h' ⊢
  all_goals grind [Binary.same_trans]

theorem partialEquivalence : PartialEquivalence Json where
  symm := parts_symm.1 _ _
  trans h := parts_trans.1 _ _ h _

end Json

/-! ## Typed data -/

namespace Typed

theorem sameEntries_cons (p q : Typed × Typed) (ps qs : List (Typed × Typed)) :
    sameEntries (p :: ps) (q :: qs) = (same p.1 q.1 && same p.2 q.2 && sameEntries ps qs) := by
  rw [sameEntries]

theorem sameFields_cons (p q : String × Typed) (ps qs : List (String × Typed)) :
    sameFields (p :: ps) (q :: qs) = (p.1 == q.1 && same p.2 q.2 && sameFields ps qs) := by
  rw [sameFields]

/-- Equality read the other way round, on data and on their parts. -/
theorem parts_symm :
    (∀ a b, same a b → same b a) ∧
      (∀ as bs, sameFields as bs → sameFields bs as) ∧
      (∀ as bs, sameEntries as bs → sameEntries bs as) ∧
      (∀ as bs, sameItems as bs → sameItems bs as) := by
  apply same.mutual_induct
  all_goals
    intros
    simp only [same, sameFields, sameEntries, sameItems, Bool.and_eq_true, beq_iff_eq,
      Bool.false_eq_true] at *
  all_goals grind [Binary.same_symm]

/-- Equality handed on, on data and on their parts. -/
theorem parts_trans :
    (∀ a b, same a b → ∀ c, same b c → same a c) ∧
      (∀ as bs, sameFields as bs → ∀ cs, sameFields bs cs → sameFields as cs) ∧
      (∀ as bs, sameEntries as bs → ∀ cs, sameEntries bs cs → sameEntries as cs) ∧
      (∀ as bs, sameItems as bs → ∀ cs, sameItems bs cs → sameItems as cs) := by
  apply same.mutual_induct
  all_goals
    intros
    rename_i h c h'
    simp only [same, sameFields, sameEntries, sameItems, Bool.and_eq_true, beq_iff_eq,
      Bool.false_eq_true] at h
  all_goals
    cases c <;>
    simp only [same, sameFields_cons, sameFields, sameEntries_cons, sameEntries, sameItems,
      Bool.and_eq_true, beq_iff_eq, Bool.false_eq_true] at h' ⊢
  all_goals grind [Binary.same_trans]

theorem partialEquivalence : PartialEquivalence Typed where
  symm := parts_symm.1 _ _
  trans h := parts_trans.1 _ _ h _

end Typed
end RecordTape
