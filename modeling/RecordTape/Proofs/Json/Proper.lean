import Mathlib.Data.List.Nodup
import Mathlib.Data.String.Basic
import RecordTape.Json.Reading
/-!
# JSON values that are read

A JSON value that is read from a text has each key once in an object, and no integer below those of
64 bits. `isProper` says so of any JSON value, and `parse_isProper` that reading gives no others.
-/

namespace RecordTape.Json

mutual

/-- The keys of each object differ, and no integer is below `-2^63`. -/
def isProper : Json → Bool
  | .int n => -int64Bound ≤ n
  | .array items => areProper items
  | .object members => (members.map (·.1)).Nodup && membersProper members
  | _ => true

def areProper : List Json → Bool
  | [] => true
  | j :: js => isProper j && areProper js

def membersProper : List (String × Json) → Bool
  | [] => true
  | (_, j) :: rest => isProper j && membersProper rest

end

theorem areProper_iff {items : List Json} : areProper items ↔ ∀ j ∈ items, j.isProper := by
  induction items with
  | nil => simp [areProper]
  | cons j rest ih => simp [areProper, ih]

theorem membersProper_iff {members : List (String × Json)} :
    membersProper members ↔ ∀ p ∈ members, p.2.isProper := by
  induction members with
  | nil => simp [membersProper]
  | cons p rest ih => obtain ⟨k, j⟩ := p; simp [membersProper, ih]

/-! ## Members in order -/

/-- The keys are in increasing order, so each is there once. -/
abbrev Sorted (members : List (String × Json)) : Prop := members.Pairwise (·.1 < ·.1)

theorem mem_insertMember {key : String} {value : Json} {members : List (String × Json)}
    {p : String × Json} (h : p ∈ insertMember key value members) :
    p = (key, value) ∨ p ∈ members := by
  induction members with
  | nil => exact .inl (List.mem_singleton.mp h)
  | cons q rest ih =>
    rw [insertMember] at h
    split at h
    · exact List.mem_cons.mp h
    · split at h
      · exact (List.mem_cons.mp h).imp_right (List.mem_cons_of_mem _)
      · rcases List.mem_cons.mp h with rfl | h
        · exact .inr List.mem_cons_self
        · exact (ih h).imp_right (List.mem_cons_of_mem _)

theorem sorted_insertMember {key : String} {value : Json} {members : List (String × Json)}
    (h : Sorted members) : Sorted (insertMember key value members) := by
  induction members with
  | nil => exact List.pairwise_singleton _ _
  | cons q rest ih =>
    obtain ⟨hfirst, hrest⟩ := List.pairwise_cons.mp h
    rw [insertMember]
    split
    · rename_i hlt
      refine List.pairwise_cons.mpr ⟨fun p hp => ?_, h⟩
      rcases List.mem_cons.mp hp with rfl | hp
      · exact hlt
      · exact lt_trans hlt (hfirst p hp)
    · rename_i hle
      split
      · rename_i heq
        exact List.pairwise_cons.mpr ⟨fun p hp => heq ▸ hfirst p hp, hrest⟩
      · rename_i hne
        refine List.pairwise_cons.mpr ⟨fun p hp => ?_, ih hrest⟩
        rcases mem_insertMember hp with rfl | hp
        · exact lt_of_le_of_ne (not_lt.mp hle) (Ne.symm hne)
        · exact hfirst p hp

/-- An object that is put together from members keeps their values, and has each key once. -/
theorem ofMembers_isProper {members : List (String × Json)} (h : ∀ p ∈ members, p.2.isProper) :
    (ofMembers members).isProper := by
  suffices hfold : ∀ (rest before : List (String × Json)), (∀ p ∈ rest, p.2.isProper) →
      Sorted before → (∀ p ∈ before, p.2.isProper) →
      (object (rest.foldl (fun sorted p => insertMember p.1 p.2 sorted) before)).isProper from
    hfold members [] h .nil nofun
  intro rest
  induction rest with
  | nil =>
    intro before _ hsorted hbefore
    have hkeys : (before.map (·.1)).Nodup := List.pairwise_map.mpr (hsorted.imp ne_of_lt)
    simp only [List.foldl_nil, isProper, Bool.and_eq_true]
    exact ⟨decide_eq_true hkeys, membersProper_iff.mpr hbefore⟩
  | cons p rest ih =>
    intro before hrest hsorted hbefore
    refine ih _ (fun q hq => hrest q (List.mem_cons_of_mem _ hq)) (sorted_insertMember hsorted) ?_
    intro q hq
    rcases mem_insertMember hq with rfl | hq
    · exact hrest p List.mem_cons_self
    · exact hbefore q hq

/-! ## Reading -/

theorem ofWhole_isProper (negative : Bool) (n : Nat) : (ofWhole negative n).isProper := by
  unfold ofWhole
  split
  · split
    · rfl
    · simp only [isProper, decide_eq_true_eq]
      unfold int64Bound at *
      omega
  · simp only [isProper, decide_eq_true_eq]
    unfold int64Bound
    omega

theorem literal_isProper {l : Literal} {j : Json} (h : l.toJson? = some j) : j.isProper := by
  unfold Literal.toJson? at h
  simp only at h
  split at h
  · cases h
    exact ofWhole_isProper _ _
  · obtain ⟨x, -, rfl⟩ := Option.map_eq_some_iff.mp h
    rfl

mutual

theorem text_isProper {t : Text} {depth : Nat} {j : Json} (h : t.toJson? depth = some j) :
    j.isProper := by
  cases t with
  | null | bool => cases h; rfl
  | number n => exact literal_isProper h
  | string units =>
    obtain ⟨s, -, rfl⟩ := Option.map_eq_some_iff.mp h
    rfl
  | array items =>
    rw [Text.toJson?] at h
    split at h
    · cases h
    · obtain ⟨js, hjs, rfl⟩ := Option.map_eq_some_iff.mp h
      exact areProper_iff.mpr (items_areProper hjs)
  | object members =>
    rw [Text.toJson?] at h
    split at h
    · cases h
    · obtain ⟨ms, hms, rfl⟩ := Option.map_eq_some_iff.mp h
      exact ofMembers_isProper (members_areProper hms)

theorem items_areProper {ts : List Text} {depth : Nat} {js : List Json}
    (h : itemsToJson? ts depth = some js) : ∀ j ∈ js, j.isProper := by
  cases ts with
  | nil => cases h; nofun
  | cons t ts =>
    obtain ⟨j, hj, h⟩ := Option.bind_eq_some_iff.mp h
    obtain ⟨rest, hrest, ⟨⟩⟩ := Option.bind_eq_some_iff.mp h
    intro j' hj'
    rcases List.mem_cons.mp hj' with rfl | hj'
    · exact text_isProper hj
    · exact items_areProper hrest j' hj'

theorem members_areProper {ts : List (List StringUnit × Text)} {depth : Nat}
    {ms : List (String × Json)} (h : membersToJson? ts depth = some ms) :
    ∀ p ∈ ms, p.2.isProper := by
  cases ts with
  | nil => cases h; nofun
  | cons t ts =>
    obtain ⟨key, -, h⟩ := Option.bind_eq_some_iff.mp h
    obtain ⟨j, hj, h⟩ := Option.bind_eq_some_iff.mp h
    obtain ⟨rest, hrest, ⟨⟩⟩ := Option.bind_eq_some_iff.mp h
    intro p hp
    rcases List.mem_cons.mp hp with rfl | hp
    · exact text_isProper hj
    · exact members_areProper hrest p hp

end

/-- Whatever is read from a text is proper. -/
theorem parse_isProper {s : String} {j : Json} (h : parse s = some j) : j.isProper := by
  obtain ⟨t, -, h⟩ := Option.bind_eq_some_iff.mp h
  exact text_isProper h

end RecordTape.Json
