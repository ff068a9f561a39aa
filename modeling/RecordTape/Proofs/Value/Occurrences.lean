import Mathlib.Data.List.Pairwise
import RecordTape.Narrowing
import RecordTape.Proofs.Value.Entries
import RecordTape.Proofs.Value.Transparent
/-!
# Names that occur more than once

The fields of a record may have a name several times. Resolution takes the last of them
(`fit_lasts`), and the check for narrowed longs looks at the first (`checkNarrowing_firsts`). So a
value is resolved as if only its last occurrences were there, and checked as if only its first ones
were.
-/

namespace RecordTape

/-! ## Lists of fields -/

section Fields

variable {α β : Type}

def lastOfEach (fields : List (String × α)) : List (String × α) :=
  fields.pwFilter fun p q => p.1 ≠ q.1

def firstOfEach (fields : List (String × α)) : List (String × α) :=
  (lastOfEach fields.reverse).reverse

/-- A field is dropped if one of its name comes later. -/
theorem lastOfEach_cons (p : String × α) (rest : List (String × α)) :
    lastOfEach (p :: rest) =
      if p.1 ∈ (lastOfEach rest).map (·.1) then lastOfEach rest else p :: lastOfEach rest := by
  unfold lastOfEach
  split
  · rename_i hlater
    obtain ⟨q, hq, hname⟩ := List.mem_map.mp hlater
    exact List.pwFilter_cons_of_neg fun hnone => hnone q hq hname.symm
  · rename_i hlater
    exact List.pwFilter_cons_of_pos fun q hq hname => hlater (hname ▸ List.mem_map_of_mem hq)

/-- The last field of a name is kept. -/
theorem lookup_reverse_lastOfEach (fields : List (String × α)) (name : String) :
    (lastOfEach fields).reverse.lookup name = fields.reverse.lookup name := by
  induction fields with
  | nil => rfl
  | cons p rest ih =>
    rw [lastOfEach_cons, List.reverse_cons, List.lookup_append, ← ih]
    split
    · rename_i hlater
      by_cases hname : name = p.1
      · -- a later field of the name is found before this one
        obtain ⟨q, hq, hqname⟩ := List.mem_map.mp hlater
        cases hfound : (lastOfEach rest).reverse.lookup name with
        | some a => rfl
        | none =>
          rw [List.lookup_eq_none_iff] at hfound
          have hne := hfound q (List.mem_reverse.mpr hq)
          rw [hqname, ← hname, bne_self_eq_false] at hne
          cases hne
      · rw [List.lookup_cons, beq_false_of_ne hname, List.lookup_nil, Option.or_none]
    · rw [List.reverse_cons, List.lookup_append]

/-- The first field of a name is kept. -/
theorem lookup_firstOfEach (fields : List (String × α)) (name : String) :
    (firstOfEach fields).lookup name = fields.lookup name := by
  rw [firstOfEach, lookup_reverse_lastOfEach, List.reverse_reverse]

/-- Which fields are kept is a matter of the names. -/
theorem lastOfEach_map (f : α → β) (fields : List (String × α)) :
    lastOfEach (fields.map fun p => (p.1, f p.2)) =
      (lastOfEach fields).map fun p => (p.1, f p.2) :=
  List.pwFilter_map _ _

theorem Value.EntriesRelated.lastOfEach {R : α → β → Prop} {ps : List (String × α)}
    {qs : List (String × β)} (h : Value.EntriesRelated R ps qs) :
    Value.EntriesRelated R (lastOfEach ps) (RecordTape.lastOfEach qs) := by
  induction h with
  | nil => exact .nil
  | @cons p q ps qs hpq _ ih =>
    rw [lastOfEach_cons, lastOfEach_cons, hpq.1, ih.map_fst]
    split
    · exact ih
    · exact .cons hpq ih

end Fields

namespace Value

/-! ## Values -/

section Pruned

variable (keep : List (String × Value) → List (String × Value))

mutual

/-- The value with fields of its records left out, in whatever depth the records are. -/
def pruned : Value → Value
  | .union i v => .union i (pruned v)
  | .array items => .array (prunedItems items)
  | .map entries => .map (prunedEntries entries)
  | .record fields => .record (keep (prunedEntries fields))
  | v => v

def prunedItems : List Value → List Value
  | [] => []
  | v :: rest => pruned v :: prunedItems rest

def prunedEntries : List (String × Value) → List (String × Value)
  | [] => []
  | (k, v) :: rest => (k, pruned v) :: prunedEntries rest

end

theorem prunedItems_eq_map (items : List Value) :
    prunedItems keep items = items.map (pruned keep) := by
  induction items with
  | nil => rfl
  | cons v rest ih => rw [prunedItems, ih, List.map_cons]

theorem prunedEntries_eq_map (entries : List (String × Value)) :
    prunedEntries keep entries = entries.map fun p => (p.1, p.2.pruned keep) := by
  induction entries with
  | nil => rfl
  | cons p rest ih => obtain ⟨k, v⟩ := p; rw [prunedEntries, ih, List.map_cons]

theorem content_pruned (v : Value) : (v.pruned keep).content = v.content.pruned keep := by
  cases v <;> rfl

theorem kind_pruned (v : Value) : (v.pruned keep).kind = v.kind := by
  cases v <;> rfl

end Pruned

def lasts (v : Value) : Value := v.pruned lastOfEach

def firsts (v : Value) : Value := v.pruned firstOfEach

/-! ## Resolution -/

/-- Fields are resolved from the entries that are found by their names. -/
theorem resolveFields_of_lookup {es es' : List (String × Fitting)}
    (h : ∀ name, es'.lookup name = es.lookup name) (fallback : Fallback) (names : Names)
    (ns : Namespace) (fields : List (Field Schema)) :
    resolveFields fallback names ns fields es' = resolveFields fallback names ns fields es := by
  unfold resolveFields
  simp only [h]

mutual

theorem plain_lasts (fallback : Fallback) (v : Value) :
    plain fallback v.lasts = plain fallback v := by
  cases v with
  | union i v =>
    have ih := plain_lasts fallback v
    funext layers names ns s
    cases layers with
    | zero => cases s <;> rfl
    | succ layers => exact congrFun (congrFun (congrFun (congrFun ih layers) names) ns) s
  | array items =>
    have ih := fittings_lasts fallback items
    funext layers names ns s
    cases s <;> simp only [lasts, pruned, plain, ih] <;> rfl
  | map entries =>
    have ih := entryFittings_lasts fallback entries
    funext layers names ns s
    cases s <;> simp only [lasts, pruned, plain, ih] <;> rfl
  | record fields =>
    have ih := entryFittings_lasts fallback fields
    have hlast (name : String) :
        (entryFittings fallback (lastOfEach (prunedEntries lastOfEach fields))).reverse.lookup
            name = (entryFittings fallback fields).reverse.lookup name := by
      rw [entryFittings_eq_map, ← lastOfEach_map, lookup_reverse_lastOfEach, ← entryFittings_eq_map,
        ih]
    funext layers names ns s
    cases s <;>
      simp only [lasts, pruned, plain, resolveFields_of_lookup hlast] <;> rfl
  | _ => rfl

theorem fittings_lasts (fallback : Fallback) (items : List Value) :
    fittings fallback (prunedItems lastOfEach items) = fittings fallback items := by
  cases items with
  | nil => rfl
  | cons v rest =>
    have hfirst := plain_lasts fallback v
    have hkind : (v.pruned lastOfEach).content.kind = v.content.kind := by
      rw [content_pruned, kind_pruned]
    rw [prunedItems, fittings, fittings, fittings_lasts fallback rest, hkind]
    exact congrArg (fun p => meet v.content.kind p :: _) hfirst

theorem entryFittings_lasts (fallback : Fallback) (entries : List (String × Value)) :
    entryFittings fallback (prunedEntries lastOfEach entries) = entryFittings fallback entries := by
  cases entries with
  | nil => rfl
  | cons p rest =>
    obtain ⟨k, v⟩ := p
    have hfirst := plain_lasts fallback v
    have hkind : (v.pruned lastOfEach).content.kind = v.content.kind := by
      rw [content_pruned, kind_pruned]
    rw [prunedEntries, entryFittings, entryFittings, entryFittings_lasts fallback rest, hkind]
    exact congrArg (fun p => (k, meet v.content.kind p) :: _) hfirst

end

/-- Earlier fields of a name make no difference to the forms that a value takes. -/
theorem fit_lasts (fallback : Fallback) (v : Value) : v.lasts.fit fallback = v.fit fallback := by
  have hkind : v.lasts.content.kind = v.content.kind := by
    rw [lasts, content_pruned, kind_pruned]
  rw [fit, fit, hkind, plain_lasts]

/-! ## The check -/

theorem entry?_firsts (name : String) (v : Value) :
    entry? name v.firsts = firsts <$> entry? name v := by
  cases v with
  | map entries =>
    rw [firsts, pruned, entry?, entry?, prunedEntries_eq_map, lookup_map_snd]
    rfl
  | record fields =>
    rw [firsts, pruned, entry?, entry?, lookup_firstOfEach, prunedEntries_eq_map, lookup_map_snd]
    rfl
  | _ => rfl

mutual

/-- Later fields of a name make no difference to the check. -/
theorem checkNarrowing_firsts (given : Value) (r : Value) :
    given.firsts.checkNarrowing r = given.checkNarrowing r := by
  cases r with
  | int i | intTime t i => cases given <;> rfl
  | union k r =>
    rw [checkNarrowing, checkNarrowing, firsts, content_pruned]
    exact checkNarrowing_firsts given.content r
  | array rs =>
    cases given with
    | array givens => exact checkItems_firsts givens rs
    | _ => rfl
  | map rs =>
    cases given with
    | map entries => exact checkEntries_firsts (.map entries) rs
    | _ => rfl
  | record rs =>
    cases given with
    | map entries => exact checkEntries_firsts (.map entries) rs
    | record fields => exact checkEntries_firsts (.record fields) rs
    | _ => rfl
  | _ => rfl

theorem checkItems_firsts (givens rs : List Value) :
    checkItems (prunedItems firstOfEach givens) rs = checkItems givens rs := by
  cases rs with
  | nil => cases givens <;> rfl
  | cons r rs =>
    cases givens with
    | nil => rfl
    | cons g givens =>
      have hfirst := checkNarrowing_firsts g r
      rw [prunedItems, checkItems, checkItems, checkItems_firsts givens rs, ← hfirst]
      rfl

theorem checkEntries_firsts (given : Value) (rs : List (String × Value)) :
    checkEntries given.firsts rs = checkEntries given rs := by
  cases rs with
  | nil => rfl
  | cons p rs =>
    obtain ⟨name, r⟩ := p
    rw [checkEntries, checkEntries, checkEntries_firsts given rs, entry?_firsts]
    cases entry? name given with
    | none => rfl
    | some g => simp only [Option.map_eq_map, Option.map_some, checkNarrowing_firsts g r]

end

end Value
end RecordTape
