import RecordTape.Datum.Basic
import RecordTape.Narrowing
import RecordTape.Proofs.Outcome
import RecordTape.Proofs.Value.Entries
/-!
# Values up to the signs of their zeros

Data are compared as numbers, and as numbers the two zeros are one. `oneZero` makes the zeros of a
value positive, so that equal data have values with the same `oneZero` (`toValue_agree`). It leaves
kinds alone, and longs, which is all that the check for narrowing looks at.
-/

namespace RecordTape

namespace Binary

variable {f : FloatFormat}

/-- The number with a negative zero made positive. -/
def oneZero (x : Binary f) : Binary f := if x.magnitude = 0 then ofBits 0 else x

theorem magnitude_ofBits_zero : (ofBits 0 : Binary f).magnitude = 0 := by
  simp [ofBits, magnitude]

/-- Numbers that are equal differ in the sign of a zero at most. -/
theorem oneZero_of_same {x y : Binary f} (h : x.same y) : x.oneZero = y.oneZero := by
  simp only [same, Bool.and_eq_true, Bool.or_eq_true, beq_iff_eq] at h
  rcases h.2 with hbits | ⟨hx, hy⟩
  · obtain ⟨x⟩ := x
    cases hbits
    rfl
  · rw [oneZero, oneZero, if_pos hx, if_pos hy]

theorem eq_or_zero_of_oneZero {x y : Binary f} (h : x.oneZero = y.oneZero) :
    x = y ∨ x.magnitude = 0 ∧ y.magnitude = 0 := by
  unfold oneZero at h
  split at h <;> split at h
  · exact .inr ⟨‹_›, ‹_›⟩
  · exact absurd (h ▸ magnitude_ofBits_zero) ‹_›
  · exact absurd (h ▸ magnitude_ofBits_zero) ‹_›
  · exact .inl h

theorem oneZero_of_zero {x : Binary f} (h : x.magnitude = 0) : x.oneZero = ofBits 0 := if_pos h

@[simp] theorem oneZero_oneZero (x : Binary f) : x.oneZero.oneZero = x.oneZero := by
  by_cases h : x.magnitude = 0
  · rw [oneZero_of_zero h, oneZero_of_zero magnitude_ofBits_zero]
  · rw [show x.oneZero = x from if_neg h]
    exact if_neg h

theorem magnitude_ofMagnitude_zero (negative : Bool) :
    (ofMagnitude negative 0 : Binary f).magnitude = 0 := by
  have hsign : f.sign < 2 ^ f.width := by
    simp only [FloatFormat.sign, FloatFormat.width]
    exact Nat.pow_lt_pow_right (by omega) (by omega)
  cases negative
  · exact magnitude_ofBits_zero
  · simp [ofMagnitude, ofBits, magnitude, Nat.mod_eq_of_lt hsign]

/-- A zero becomes a zero in another format. -/
theorem magnitude_convert_zero {g : FloatFormat} (hf : 0 < f.infinity) {x : Binary f}
    (h : x.magnitude = 0) : (x.convert g).magnitude = 0 := by
  have hnan : x.isNaN = false := by simp [isNaN, h]
  have hfinite : x.isFinite = true := by simp [isFinite, h, hf]
  have hunpack : x.unpack.1 = 0 := by simp [unpack, h]
  have hnum (e : Int) : (FloatFormat.scaled 0 1 e).1 = 0 := by
    unfold FloatFormat.scaled
    split <;> simp
  simp only [convert, hnan, hfinite, hunpack, ofQuotient, hnum, if_true, Bool.false_eq_true,
    if_false]
  exact magnitude_ofMagnitude_zero _

theorem oneZero_convert {g : FloatFormat} (hf : 0 < f.infinity) (x : Binary f) :
    (x.oneZero.convert g).oneZero = (x.convert g).oneZero := by
  by_cases h : x.magnitude = 0
  · rw [oneZero_of_zero h, oneZero_of_zero (magnitude_convert_zero hf h),
      oneZero_of_zero (magnitude_convert_zero hf magnitude_ofBits_zero)]
  · rw [show x.oneZero = x from if_neg h]

end Binary

namespace Value

mutual

/-- The value with its negative zeros made positive. -/
def oneZero : Value → Value
  | .float x => .float x.oneZero
  | .double x => .double x.oneZero
  | .array items => .array (itemsOneZero items)
  | .map entries => .map (entriesOneZero entries)
  | .union i v => .union i (oneZero v)
  | .record fields => .record (entriesOneZero fields)
  | v => v

/-- The items with their negative zeros made positive. -/
def itemsOneZero : List Value → List Value
  | [] => []
  | v :: rest => oneZero v :: itemsOneZero rest

/-- The entries with their negative zeros made positive. -/
def entriesOneZero : List (String × Value) → List (String × Value)
  | [] => []
  | (k, v) :: rest => (k, oneZero v) :: entriesOneZero rest

end

@[simp] theorem kind_oneZero (v : Value) : v.oneZero.kind = v.kind := by cases v <;> rfl

@[simp] theorem content_oneZero (v : Value) : v.oneZero.content = v.content.oneZero := by
  cases v <;> rfl

/-! ## Narrowing -/

mutual

theorem containsLong_oneZero (v : Value) : v.oneZero.containsLong = v.containsLong := by
  cases v with
  | array items => exact anyLong_oneZero items
  | map entries => exact anyEntryLong_oneZero entries
  | union i v => exact containsLong_oneZero v
  | record fields => exact anyEntryLong_oneZero fields
  | _ => rfl

theorem anyLong_oneZero (items : List Value) : anyLong (itemsOneZero items) = anyLong items := by
  cases items with
  | nil => rfl
  | cons v rest => rw [itemsOneZero, anyLong, anyLong, containsLong_oneZero v, anyLong_oneZero rest]

theorem anyEntryLong_oneZero (entries : List (String × Value)) :
    anyEntryLong (entriesOneZero entries) = anyEntryLong entries := by
  cases entries with
  | nil => rfl
  | cons p rest =>
    rw [entriesOneZero, anyEntryLong, anyEntryLong, containsLong_oneZero p.2,
      anyEntryLong_oneZero rest]

end

theorem itemsOneZero_eq (items : List Value) : itemsOneZero items = items.map oneZero := by
  induction items with
  | nil => rfl
  | cons v rest ih => rw [itemsOneZero, ih]; rfl

theorem entriesOneZero_eq (entries : List (String × Value)) :
    entriesOneZero entries = entries.map fun p => (p.1, p.2.oneZero) := by
  induction entries with
  | nil => rfl
  | cons p rest ih => rw [entriesOneZero, ih]; rfl

theorem lookup_oneZero (entries : List (String × Value)) (name : String) :
    (entriesOneZero entries).lookup name = (entries.lookup name).map oneZero := by
  rw [entriesOneZero_eq, lookup_map_snd]

theorem entry?_oneZero (name : String) (v : Value) :
    entry? name v.oneZero = Option.map oneZero ( entry? name v) := by
  cases v with
  | map entries => exact lookup_oneZero entries name
  | record fields => exact lookup_oneZero fields name
  | _ => rfl

mutual

/-- The check for narrowing looks at no floating-point number. -/
theorem checkNarrowing_oneZero (given resolved : Value) :
    given.oneZero.checkNarrowing resolved.oneZero = given.checkNarrowing resolved := by
  cases resolved with
  | array items => cases given <;> first | rfl | exact checkItems_oneZero _ items
  | map entries => cases given <;> first | rfl | exact checkEntries_oneZero (.map _) entries
  | union i v =>
    rw [oneZero, checkNarrowing, checkNarrowing, content_oneZero]
    exact checkNarrowing_oneZero _ v
  | record fields =>
    cases given with
    | map entries => exact checkEntries_oneZero (.map entries) fields
    | record entries => exact checkEntries_oneZero (.record entries) fields
    | _ => rfl
  | int i | intTime t i => cases given <;> rfl
  | _ => rfl

theorem checkItems_oneZero (givens resolved : List Value) :
    checkItems (itemsOneZero givens) (itemsOneZero resolved) = checkItems givens resolved := by
  cases resolved with
  | nil => cases givens <;> rfl
  | cons r resolved =>
    cases givens with
    | nil => rfl
    | cons g givens =>
      rw [itemsOneZero, itemsOneZero, checkItems, checkItems, checkNarrowing_oneZero g r,
        checkItems_oneZero givens resolved]

theorem checkEntries_oneZero (given : Value) (resolved : List (String × Value)) :
    checkEntries given.oneZero (entriesOneZero resolved) = checkEntries given resolved := by
  cases resolved with
  | nil => rfl
  | cons p resolved =>
    obtain ⟨name, r⟩ := p
    rw [entriesOneZero, checkEntries, checkEntries, entry?_oneZero,
      checkEntries_oneZero given resolved]
    cases entry? name given with
    | none => rfl
    | some g => simp only [Option.map_some, checkNarrowing_oneZero g r]

end

end Value

/-! ## JSON values -/

namespace Json

mutual

/-- Equal JSON values stand for values that differ in the signs of zeros at most. -/
theorem toValue_agree {a b : Json} (h : same a b) :
    Outcome.Agree Value.oneZero (toValue a) (toValue b) := by
  cases a <;> cases b <;> simp only [same, Bool.false_eq_true, beq_iff_eq] at h
  case null.null => exact .refl _
  case bool.bool | int.int | string.string => subst h; exact .refl _
  case double.double x y =>
    exact .ok (by rw [Value.oneZero, Value.oneZero, Binary.oneZero_of_same h])
  case array.array as bs =>
    refine (itemsToValues_agree h).bind fun vs ws hvs => .ok ?_
    rw [Value.oneZero, Value.oneZero, hvs]
  case object.object as bs =>
    refine (membersToEntries_agree h).bind fun vs ws hvs => .ok ?_
    rw [Value.oneZero, Value.oneZero, hvs]

theorem itemsToValues_agree {as bs : List Json} (h : sameItems as bs) :
    Outcome.Agree Value.itemsOneZero (itemsToValues as) (itemsToValues bs) := by
  cases as <;> cases bs <;> simp only [sameItems, Bool.false_eq_true, Bool.and_eq_true] at h
  case nil.nil => exact .refl _
  case cons.cons a as b bs =>
    refine (toValue_agree h.1).bind fun v w hv =>
      (itemsToValues_agree h.2).bind fun vs ws hvs => .ok ?_
    rw [Value.itemsOneZero, Value.itemsOneZero, hv, hvs]

theorem membersToEntries_agree {as bs : List (String × Json)} (h : sameMembers as bs) :
    Outcome.Agree Value.entriesOneZero (membersToEntries as) (membersToEntries bs) := by
  cases as <;> cases bs <;> simp only [sameMembers, Bool.false_eq_true, Bool.and_eq_true,
    beq_iff_eq] at h
  case nil.nil => exact .refl _
  case cons.cons a as b bs =>
    obtain ⟨⟨hkey, ha⟩, has⟩ := h
    refine (toValue_agree ha).bind fun v w hv =>
      (membersToEntries_agree has).bind fun vs ws hvs => .ok ?_
    rw [Value.entriesOneZero, Value.entriesOneZero, hkey, hv, hvs]

end

end Json
end RecordTape
