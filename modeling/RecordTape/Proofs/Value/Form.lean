import RecordTape.Capacity
import RecordTape.Number.Bound
import RecordTape.Value.Basic
/-!
# Forms of values

Two invariants of values. A value is well-formed if its parts have the sizes that memory allows and
the keys of its maps differ; every value that stands for a datum is. A value has the form of a
schema if it is built as the schema says: this is what resolution gives, and all that reading back
needs. `HasForm` leaves the sizes of fixed bytes open unless `sized` is set, because resolution does
not look at the size of fixed bytes made from a text.
-/

namespace RecordTape

namespace Value

/-! ## Well-formed values -/

mutual

/-- The sizes in a value are below `2^63`, the keys of each map differ, and durations have twelve
bytes. -/
def isWellFormed : Value → Bool
  | bytes b | fixed b | decimal b => b.length < Capacity.limit
  | string s => (Bytes.ofText s).length < Capacity.limit
  | array items => items.length < Capacity.limit && areWellFormed items
  | map entries =>
    entries.length < Capacity.limit && (entries.map (·.1)).Nodup &&
      entries.all (fun (k, _) => (Bytes.ofText k).length < Capacity.limit) &&
      entriesWellFormed entries
  | union _ v => isWellFormed v
  | record fields => entriesWellFormed fields
  | duration b => b.length = 12
  | _ => true

def areWellFormed : List Value → Bool
  | [] => true
  | v :: rest => isWellFormed v && areWellFormed rest

def entriesWellFormed : List (String × Value) → Bool
  | [] => true
  | (_, v) :: rest => isWellFormed v && entriesWellFormed rest

end

theorem areWellFormed_iff {items : List Value} :
    areWellFormed items ↔ ∀ v ∈ items, v.isWellFormed := by
  induction items with
  | nil => simp [areWellFormed]
  | cons v rest ih => simp [areWellFormed, ih]

theorem entriesWellFormed_iff {entries : List (String × Value)} :
    entriesWellFormed entries ↔ ∀ p ∈ entries, p.2.isWellFormed := by
  induction entries with
  | nil => simp [entriesWellFormed]
  | cons p rest ih => obtain ⟨k, v⟩ := p; simp [entriesWellFormed, ih]

/-! ## Values in the form of a schema -/

/-- The value is built as the schema says. A reference stands for its definition. -/
inductive HasForm (sized : Bool) (names : Names) : Schema → Value → Prop
  | null : HasForm sized names .null .null
  | boolean (b : Bool) : HasForm sized names .boolean (.boolean b)
  | int (n : Int32) : HasForm sized names .int (.int n)
  | long (n : Int64) : HasForm sized names .long (.long n)
  | float (x : Binary32) : HasForm sized names .float (.float x)
  | double (x : Binary64) : HasForm sized names .double (.double x)
  | bytes {b : Bytes} : b.length < Capacity.limit → HasForm sized names .bytes (.bytes b)
  | string {t : String} : (Bytes.ofText t).length < Capacity.limit →
    HasForm sized names .string (.string t)
  | array {s : Schema} {items : List Value} : items.length < Capacity.limit →
    (∀ v ∈ items, HasForm sized names s v) → HasForm sized names (.array s) (.array items)
  | map {s : Schema} {entries : List (String × Value)} : entries.length < Capacity.limit →
    (entries.map (·.1)).Nodup →
    (∀ p ∈ entries, (Bytes.ofText p.1).length < Capacity.limit) →
    (∀ p ∈ entries, HasForm sized names s p.2) → HasForm sized names (.map s) (.map entries)
  | union {branches : List Schema} {i : Nat} {branch : Schema} {v : Value} :
    branches[i]? = some branch → i < Capacity.limit → HasForm sized names branch v →
    HasForm sized names (.union branches) (.union i v)
  | record {name : Name} {fields : List (Field Schema)} {entries : List (String × Value)} :
    entries.map (·.1) = fields.map (·.name) →
    (∀ p ∈ fields.zip entries, HasForm sized names p.1.schema p.2.2) →
    HasForm sized names (.record name fields) (.record entries)
  | enum {name : Name} {symbols : List String} {default : Option String} {i : Nat} {t : String} :
    symbols[i]? = some t → (i : Int) < int32Bound →
    HasForm sized names (.enum name symbols default) (.enum i t)
  | fixed {name : Name} {size : Nat} {b : Bytes} : b.length < Capacity.limit →
    (sized → b.length = size) → HasForm sized names (.fixed name size) (.fixed b)
  | decimal {base : DecimalBase} {precision scale : Nat} {b : Bytes} : b.length < Capacity.limit →
    HasForm sized names (.decimal base precision scale) (.decimal b)
  | uuid (u : Uuid) : HasForm sized names .uuid (.uuid u)
  | intTime (t : IntTime) (n : Int32) : HasForm sized names (.intTime t) (.intTime t n)
  | longTime (t : LongTime) (n : Int64) : HasForm sized names (.longTime t) (.longTime t n)
  | duration {b : Bytes} : b.length = 12 → HasForm sized names .duration (.duration b)
  | ref {name : Name} {target : Schema} {v : Value} : names.find? name = some target →
    HasForm sized names target v → HasForm sized names (.ref name) v

namespace HasForm

variable {sized : Bool} {names : Names} {s : Schema} {v : Value}

section Fields

variable {fields : List (Field Schema)} {entries : List (String × Value)}
  (h : entries.map (·.1) = fields.map (·.name))
include h

theorem length_entries : entries.length = fields.length := by
  simpa using congrArg List.length h

/-- Each entry of a record is that of a field. -/
theorem exists_field {p : String × Value} (hp : p ∈ entries) :
    ∃ f, (f, p) ∈ fields.zip entries := by
  obtain ⟨i, hi, rfl⟩ := List.mem_iff_getElem.mp hp
  have hlen := length_entries h
  exact ⟨fields[i], List.mem_iff_getElem.mpr ⟨i, by simp; omega, by simp⟩⟩

/-- Each field has an entry. -/
theorem exists_entry {f : Field Schema} (hf : f ∈ fields) :
    ∃ p ∈ entries, (f, p) ∈ fields.zip entries := by
  obtain ⟨i, hi, rfl⟩ := List.mem_iff_getElem.mp hf
  have hlen := length_entries h
  have hi' : i < entries.length := by omega
  exact ⟨entries[i], List.getElem_mem hi', List.mem_iff_getElem.mpr ⟨i, by simp; omega, by simp⟩⟩

/-- An entry has the name of its field. -/
theorem name_eq {f : Field Schema} {p : String × Value} (hp : (f, p) ∈ fields.zip entries) :
    p.1 = f.name := by
  obtain ⟨i, hi, heq⟩ := List.mem_iff_getElem.mp hp
  simp only [List.length_zip, Nat.lt_min] at hi
  simp only [List.getElem_zip, Prod.mk.injEq] at heq
  obtain ⟨rfl, rfl⟩ := heq
  have := congrArg (·[i]?) h
  simpa [hi.1, hi.2] using this

theorem map_fst_zip : (fields.zip entries).map (·.1) = fields :=
  List.map_fst_zip (Nat.le_of_eq (length_entries h).symm)

theorem map_snd_zip : (fields.zip entries).map (·.2) = entries :=
  List.map_snd_zip (Nat.le_of_eq (length_entries h))

end Fields

theorem isWellFormed (h : HasForm sized names s v) : v.isWellFormed := by
  induction h with
  | bytes h | string h | duration h => simpa [Value.isWellFormed] using h
  | fixed h | decimal h => simpa [Value.isWellFormed] using h
  | array h _ ih => simpa [Value.isWellFormed, areWellFormed_iff, h] using ih
  | map hlen hkeys htexts _ ih =>
    simp only [Value.isWellFormed, Bool.and_eq_true, decide_eq_true_eq, List.all_eq_true,
      entriesWellFormed_iff]
    exact ⟨⟨⟨hlen, hkeys⟩, htexts⟩, ih⟩
  | union _ _ _ ih | ref _ _ ih => simpa [Value.isWellFormed] using ih
  | record hnames _ ih =>
    rw [Value.isWellFormed, entriesWellFormed_iff]
    intro p hp
    obtain ⟨f, hf⟩ := exists_field hnames hp
    exact ih _ hf
  | _ => rfl

end HasForm
end Value
end RecordTape
