import RecordTape.Proofs.Value.Transparent
/-!
# Parts of values that meet schemas

Resolution taken apart: what a value that meets a schema was given to, and what its items and
entries became.
-/

namespace RecordTape

/-- The check of its base that a decimal makes before it looks at a value. -/
def Schema.checkBase : Schema → Outcome Mismatch Unit
  | .decimal base precision _ => Decimal.checkBase precision base
  | _ => pure ()

namespace Value

/-- Whatever the schema, a value meets one that is neither a union nor a reference, and is given an
option around it at most. -/
theorem meet_ok {kind : Kind} {plain : Nat → Fitting} {names : Names} {ns : Namespace} {s : Schema}
    {v : Value} (h : meet kind plain names ns s = .ok v) :
    ∃ layers ns' s' r, plain layers names ns' s' = .ok r ∧ (v = r ∨ ∃ i, v = .union i r) := by
  have direct : ∀ {layers ns s r}, meetDirect plain layers names ns s = .ok r →
      ∃ layers ns' s', plain layers names ns' s' = .ok r := by
    intro layers ns s r h
    unfold meetDirect at h
    split at h
    · simp only at h
      split at h
      · exact ⟨_, _, _, h⟩
      · cases h
    · exact ⟨_, _, _, h⟩
  unfold meet at h
  split at h
  · obtain ⟨⟨i, branch⟩, -, h⟩ := Outcome.bind_eq_ok.mp h
    obtain ⟨r, hr, h⟩ := Outcome.bind_eq_ok.mp h
    cases h
    obtain ⟨layers, ns', s', hplain⟩ := direct hr
    exact ⟨layers, ns', s', r, hplain, .inr ⟨i, rfl⟩⟩
  · obtain ⟨layers, ns', s', hplain⟩ := direct h
    exact ⟨layers, ns', s', v, hplain, .inl rfl⟩

theorem resolveSymbol_enum {symbols : List String} {default : Option String} {t : String}
    {v : Value} (h : resolveSymbol symbols default t = .ok v) : ∃ i u, v = .enum i u := by
  unfold resolveSymbol at h
  split at h
  · cases h; exact ⟨_, _, rfl⟩
  · split at h <;> cases h
    exact ⟨_, _, rfl⟩

/-- An array becomes an array of what its items become, or bytes if they become ints in range. -/
theorem plain_array {fallback : Fallback} {items : List Value} {layers : Nat} {names : Names}
    {ns : Namespace} {s : Schema} {v : Value}
    (h : plain fallback (.array items) layers names ns s = .ok v) :
    (∃ schema, resolveItems names ns schema (fittings fallback items) = .ok v) ∨
      resolveBytes (fittings fallback items) = .ok v := by
  cases s with
  | array schema => exact .inl ⟨schema, h⟩
  | bytes => exact .inr h
  | decimal base precision scale =>
    obtain ⟨-, -, h⟩ := Outcome.bind_eq_ok.mp h
    cases h
  | _ => cases h

/-- A map becomes a map or a record. -/
theorem plain_map {fallback : Fallback} {entries : List (String × Value)} {layers : Nat}
    {names : Names} {ns : Namespace} {s : Schema} {v : Value}
    (h : plain fallback (.map entries) layers names ns s = .ok v) :
    (∃ schema, resolveEntries names ns schema (entryFittings fallback entries) = .ok v) ∨
      ∃ fields,
        resolveFields fallback names ns fields (entryFittings fallback entries) = .ok v := by
  cases s with
  | map schema => exact .inl ⟨schema, h⟩
  | record name fields => exact .inr ⟨fields, h⟩
  | decimal base precision scale =>
    obtain ⟨-, -, h⟩ := Outcome.bind_eq_ok.mp h
    cases h
  | _ => cases h

theorem fittings_getElem? (fallback : Fallback) {items : List Value} {i : Nat} {v : Value}
    (h : items[i]? = some v) : (fittings fallback items)[i]? = some (fit fallback v) := by
  rw [fittings_eq_map, List.getElem?_map, h, Option.map_some]

theorem entryFittings_lookup (fallback : Fallback) {entries : List (String × Value)} {name : String}
    {v : Value} (h : entries.lookup name = some v) :
    (entryFittings fallback entries).lookup name = some (fit fallback v) := by
  rw [entryFittings_eq_map, lookup_map_snd, h, Option.map_some]

theorem mem_entryFittings {fallback : Fallback} {entries : List (String × Value)} {name : String}
    {f : Fitting} (h : (name, f) ∈ entryFittings fallback entries) :
    ∃ v, (name, v) ∈ entries ∧ f = fit fallback v := by
  rw [entryFittings_eq_map] at h
  obtain ⟨⟨k, v⟩, hmem, heq⟩ := List.mem_map.mp h
  cases heq
  exact ⟨v, hmem, rfl⟩

theorem resolveEntries_related {names : Names} {ns : Namespace} {s : Schema}
    {entries : List (String × Fitting)} {resolved : List (String × Value)}
    (h : resolveEntries names ns s entries = .ok (.map resolved)) :
    EntriesRelated (fun entry r => entry names ns s = .ok r) entries resolved := by
  obtain ⟨_, hall, ⟨⟩⟩ := Outcome.bind_eq_ok.mp h
  refine Outcome.forall₂_of_mapM hall fun p _ q hq => ?_
  obtain ⟨r, hr, ⟨⟩⟩ := Outcome.bind_eq_ok.mp hq
  exact ⟨rfl, hr⟩

theorem resolveEntries_lookup {names : Names} {ns : Namespace} {s : Schema}
    {entries : List (String × Fitting)} {resolved : List (String × Value)} {name : String}
    {entry : Fitting} {r : Value} (h : resolveEntries names ns s entries = .ok (.map resolved))
    (hentry : entries.lookup name = some entry) (hr : resolved.lookup name = some r) :
    entry names ns s = .ok r := by
  obtain ⟨_, hr', hfit⟩ := exists_right_of_rel ((resolveEntries_related h).lookup name) hentry
  cases hr.symm.trans hr'
  exact hfit

/-- Every entry of the map was resolved from one of the name. -/
theorem resolveEntries_of_mem {names : Names} {ns : Namespace} {s : Schema}
    {entries : List (String × Fitting)} {resolved : List (String × Value)} {name : String}
    {r : Value} (h : resolveEntries names ns s entries = .ok (.map resolved))
    (hr : (name, r) ∈ resolved) : ∃ entry, (name, entry) ∈ entries ∧ entry names ns s = .ok r := by
  obtain ⟨_, hall, ⟨⟩⟩ := Outcome.bind_eq_ok.mp h
  obtain ⟨⟨k, entry⟩, hentry, hstep⟩ := Outcome.exists_of_mem_mapM hall hr
  obtain ⟨w, hw, ⟨⟩⟩ := Outcome.bind_eq_ok.mp hstep
  exact ⟨entry, hentry, hw⟩

/-- A field that the entries have was resolved from its entry. -/
theorem resolveFields_of_mem {fallback : Fallback} {names : Names} {ns : Namespace}
    {fields : List (Field Schema)} {entries : List (String × Fitting)}
    {resolved : List (String × Value)} {name : String} {entry : Fitting} {r : Value}
    (h : resolveFields fallback names ns fields entries = .ok (.record resolved))
    (hentry : entries.lookup name = some entry) (hr : (name, r) ∈ resolved) :
    ∃ s, entry names ns s = .ok r := by
  obtain ⟨_, h, ⟨⟩⟩ := Outcome.bind_eq_ok.mp h
  obtain ⟨field, -, hfield⟩ := Outcome.exists_of_mem_mapM h hr
  split at hfield
  · rename_i entry' hentry'
    obtain ⟨w, hw, ⟨⟩⟩ := Outcome.bind_eq_ok.mp hfield
    cases hentry.symm.trans hentry'
    exact ⟨field.schema, hw⟩
  · rename_i hnone
    obtain ⟨w, hw, ⟨⟩⟩ := Outcome.bind_eq_ok.mp hfield
    cases hentry.symm.trans hnone

end Value
end RecordTape
