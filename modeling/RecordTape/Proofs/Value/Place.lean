import RecordTape.Datum.Basic
import RecordTape.Narrowing
import RecordTape.Proofs.Outcome
import RecordTape.Proofs.Value.RoundTrip
/-!
# Places of integers

A path leads from a value to one of its parts, by the index of an item and the name of a member. It
leads to the same part before and after resolution: maps become records and options come around
values, but items keep their index and members their name. So an integer of a JSON value and the
slot that resolution put it into stand at the same path.
-/

namespace RecordTape

inductive Step where
  | item (index : Nat)
  | member (name : String)

/-- What an integer can stand in that has fewer than 64 bits: an int, also that of a date or time,
and one of several bytes. -/
inductive Slot where
  | int
  | byte

namespace Json

def partAt : List Step → Json → Option Json
  | [], j => some j
  | .item i :: path, .array items => items[i]?.bind (partAt path)
  | .member name :: path, .object members => (members.lookup name).bind (partAt path)
  | _, _ => none

end Json

namespace Value

/-- The part at the end of a path, in a value without options and records. -/
def partAt : List Step → Value → Option Value
  | [], v => some v
  | .item i :: path, .array items => items[i]?.bind (partAt path)
  | .member name :: path, .map entries => (entries.lookup name).bind (partAt path)
  | _, _ => none

/-- The slot at the end of a path and the integer in it. An option is passed through. -/
def slotAt : List Step → Value → Option (Slot × Int)
  | [], v =>
    match v.content with
    | .int n | .intTime _ n => some (.int, n.toInt)
    | _ => none
  | .item i :: path, v =>
    match v.content with
    | .array items => items[i]?.bind (slotAt path)
    | .bytes b => if path.isEmpty then b[i]?.map fun byte => (.byte, byte.toNat) else none
    | _ => none
  | .member name :: path, v =>
    match v.content with
    | .map entries | .record entries => (entries.lookup name).bind (slotAt path)
    | _ => none

end Value

/-! ## The value of a JSON value -/

namespace Json

theorem forall₂_of_itemsToValues {items : List Json} {values : List Value}
    (h : itemsToValues items = .ok values) :
    List.Forall₂ (fun j v => j.toValue = .ok v) items values := by
  induction items generalizing values with
  | nil => cases h; exact .nil
  | cons item rest ih =>
    obtain ⟨v, hv, h⟩ := Outcome.bind_eq_ok.mp h
    obtain ⟨vs, hvs, ⟨⟩⟩ := Outcome.bind_eq_ok.mp h
    exact .cons hv (ih hvs)

theorem related_of_membersToEntries {members : List (String × Json)}
    {entries : List (String × Value)} (h : membersToEntries members = .ok entries) :
    Value.EntriesRelated (fun j v => j.toValue = .ok v) members entries := by
  induction members generalizing entries with
  | nil => cases h; exact .nil
  | cons member rest ih =>
    obtain ⟨v, hv, h⟩ := Outcome.bind_eq_ok.mp h
    obtain ⟨vs, hvs, ⟨⟩⟩ := Outcome.bind_eq_ok.mp h
    exact .cons ⟨rfl, hv⟩ (ih hvs)

/-- The value of a part is the part of the value. -/
theorem partAt_of_toValue {j part : Json} {v : Value} {path : List Step}
    (h : j.toValue = .ok v) (hpart : j.partAt path = some part) :
    ∃ u, v.partAt path = some u ∧ part.toValue = .ok u := by
  induction path generalizing j v with
  | nil =>
    cases hpart
    exact ⟨v, rfl, h⟩
  | cons step path ih =>
    cases step with
    | item i =>
      cases j with
      | array items =>
        obtain ⟨values, hvalues, ⟨⟩⟩ := Outcome.bind_eq_ok.mp h
        obtain ⟨item, hitem, hpart⟩ := Option.bind_eq_some_iff.mp hpart
        obtain ⟨u, hu, hvalue⟩ :=
          Value.exists_right_of_rel (Value.rel_getElem? (forall₂_of_itemsToValues hvalues) i) hitem
        simpa only [Value.partAt, hu, Option.bind_some] using ih hvalue hpart
      | _ => cases hpart
    | member name =>
      cases j with
      | object members =>
        obtain ⟨entries, hentries, ⟨⟩⟩ := Outcome.bind_eq_ok.mp h
        obtain ⟨member, hmember, hpart⟩ := Option.bind_eq_some_iff.mp hpart
        obtain ⟨u, hu, hvalue⟩ :=
          Value.exists_right_of_rel ((related_of_membersToEntries hentries).lookup name) hmember
        simpa only [Value.partAt, hu, Option.bind_some] using ih hvalue hpart
      | _ => cases hpart

/-- The value of an integer is a long, and the integer is below the end of longs. -/
theorem toValue_int {n : Int} {v : Value} (h : (Json.int n).toValue = .ok v) :
    n < int64Bound ∧ v = .long (Int64.ofInt n) := by
  rw [toValue] at h
  split at h
  · cases h
    exact ⟨‹_›, rfl⟩
  · cases h

end Json

namespace Value

/-! ## Longs that are there -/

theorem anyLong_of_mem {items : List Value} {v : Value} (hv : v ∈ items) (h : v.containsLong) :
    anyLong items := by
  induction items with
  | nil => cases hv
  | cons u rest ih =>
    rw [anyLong, Bool.or_eq_true]
    rcases List.mem_cons.mp hv with rfl | hv
    · exact .inl h
    · exact .inr (ih hv)

theorem anyEntryLong_of_mem {entries : List (String × Value)} {p : String × Value}
    (hp : p ∈ entries) (h : p.2.containsLong) : anyEntryLong entries := by
  induction entries with
  | nil => cases hp
  | cons q rest ih =>
    rw [anyEntryLong, Bool.or_eq_true]
    rcases List.mem_cons.mp hp with rfl | hp
    · exact .inl h
    · exact .inr (ih hp)

theorem containsLong_of_partAt {v : Value} {path : List Step} {n : Int64}
    (h : v.partAt path = some (.long n)) : v.containsLong := by
  induction path generalizing v with
  | nil =>
    cases h
    rfl
  | cons step path ih =>
    cases step with
    | item i =>
      cases v with
      | array items =>
        obtain ⟨part, hpart, h⟩ := Option.bind_eq_some_iff.mp h
        exact anyLong_of_mem (List.mem_of_getElem? hpart) (ih h)
      | _ => cases h
    | member name =>
      cases v with
      | map entries =>
        obtain ⟨part, hpart, h⟩ := Option.bind_eq_some_iff.mp h
        exact anyEntryLong_of_mem (mem_of_lookup hpart) (ih h)
      | _ => cases h

/-! ## Values that are alike -/

namespace Alike

variable {v w : Value}

theorem content (h : Alike v w) : Alike v.content w.content := by
  cases h with
  | refl => exact .refl _
  | decimal h => exact .decimal h
  | array h => exact .array h
  | map hkeys h => exact .map hkeys h
  | union i h => exact h
  | record hkeys h => exact .record hkeys h

/-- Values that are alike have the same integers in the same slots. -/
theorem slotAt (h : Alike v w) (path : List Step) : w.slotAt path = v.slotAt path := by
  induction path generalizing v w with
  | nil =>
    have hc := h.content
    unfold Value.slotAt
    generalize v.content = v, w.content = w at hc
    cases hc <;> rfl
  | cons step path ih =>
    have hc := h.content
    cases step with
    | item i =>
      unfold Value.slotAt
      generalize v.content = v, w.content = w at hc
      cases hc with
      | @array vs ws h =>
        have hitem := rel_getElem? h i
        simp only
        generalize vs[i]? = x, ws[i]? = y at hitem ⊢
        cases hitem with
        | none => rfl
        | some hvw => exact ih hvw
      | _ => rfl
    | member name =>
      unfold Value.slotAt
      generalize v.content = v, w.content = w at hc
      cases hc with
      | @map vs ws hkeys h | @record vs ws hkeys h =>
        have hentry := (EntriesRelated.of_maps hkeys h).lookup name
        simp only
        generalize vs.lookup name = x, ws.lookup name = y at hentry ⊢
        cases hentry with
        | none => rfl
        | some hvw => exact ih hvw
      | _ => rfl

end Alike
end Value
end RecordTape
