import RecordTape.Proofs.Outcome
import RecordTape.Proofs.Value.Place
import RecordTape.Value.Resolve
/-!
# Options around parts

An option around a part of a value makes no difference to the form that the value takes under a
schema: one option is taken off wherever a schema is met. It makes a difference to the check of
what was narrowed, which looks into an option only where the resolved value has one as well. In any
other slot the check passes over the option and all that is in it.

`Transparent path v v'` says so of two values of which the second has one option more, at `path`;
it is shown for the value itself and carried through arrays, maps and records.
-/

namespace RecordTape

namespace Value

/-- The value is an option or a variant. -/
def isUnion : Value → Bool
  | .union .. => true
  | _ => false

/-- The value without any options around it. -/
def bare : Value → Value
  | .union _ v => bare v
  | v => v

/-- What stands at the end of a path in a resolved value: options on the way are passed through, and
an entry counts as often as its name occurs. -/
def standingAt : List Step → Value → List Value
  | [], r => [r]
  | .item i :: path, r =>
    match r.bare with
    | .array items => items[i]?.toList.flatMap (standingAt path)
    | _ => []
  | .member name :: path, r =>
    match r.bare with
    | .map entries | .record entries =>
      (entries.filter (·.1 = name)).flatMap fun p => standingAt path p.2
    | _ => []

/-- The second value fares as the first: it takes the same forms, and passes the check where the
first one does; and it fails where that one fails, if all that stands at the path are options. -/
structure Transparent (path : List Step) (v v' : Value) : Prop where
  fit : ∀ fallback, v'.fit fallback = v.fit fallback
  loosened : ∀ r, v.checkNarrowing r = .ok () → v'.checkNarrowing r = .ok ()
  checked : ∀ r, (∀ slot ∈ r.standingAt path, slot.isUnion) →
    v'.checkNarrowing r = v.checkNarrowing r

/-! ## The forms a value takes -/

section Meeting

variable {p q : Nat → Fitting}

theorem meetDirect_congr (h : ∀ n, p (n + 1) = q (n + 1)) (layers : Nat) :
    meetDirect p layers = meetDirect q layers := by
  funext names ns s
  cases s with
  | ref name => simp only [meetDirect, h]
  | _ => exact congrFun (congrFun (congrFun (h layers) names) ns) _

theorem searchBranch_congr (h : ∀ n, p (n + 1) = q (n + 1)) (ns : Namespace) (names : Names)
    (i : Nat) (branches : List Schema) :
    searchBranch p ns names i branches = searchBranch q ns names i branches := by
  induction branches generalizing names i with
  | nil => rfl
  | cons branch rest ih => simp only [searchBranch, meetDirect_congr h, ih]

/-- How a value meets schemas is a matter of what it is with an option or more taken off. -/
theorem meet_congr (h : ∀ n, p (n + 1) = q (n + 1)) (kind : Kind) : meet kind p = meet kind q := by
  funext names ns s
  simp only [meet, chooseBranch, searchBranch_congr h, meetDirect_congr h]

end Meeting

/-- Without an option around it a value has none taken off. -/
theorem plain_of_not_union (fallback : Fallback) {v : Value} (hv : v.isUnion = false)
    (m n : Nat) : plain fallback v m = plain fallback v n := by
  funext names ns s
  cases v <;> first | rfl | cases hv

theorem content_of_not_union {v : Value} (hv : v.isUnion = false) : v.content = v := by
  cases v <;> first | rfl | cases hv

theorem fit_union (fallback : Fallback) {v : Value} (hv : v.isUnion = false) (i : Nat) :
    (Value.union i v).fit fallback = v.fit fallback := by
  rw [fit, fit, content_of_not_union hv]
  refine meet_congr (fun n => ?_) v.kind
  exact plain_of_not_union fallback hv n (n + 1)

theorem fittings_eq_map (fallback : Fallback) (items : List Value) :
    fittings fallback items = items.map (fit fallback) := by
  induction items with
  | nil => rfl
  | cons v rest ih => rw [fittings, ih]; rfl

theorem entryFittings_eq_map (fallback : Fallback) (entries : List (String × Value)) :
    entryFittings fallback entries = entries.map fun p => (p.1, p.2.fit fallback) := by
  induction entries with
  | nil => rfl
  | cons p rest ih => rw [entryFittings, ih]; rfl

theorem fit_array_congr {fallback : Fallback} {items items' : List Value}
    (h : items.map (fit fallback) = items'.map (fit fallback)) :
    (Value.array items).fit fallback = (Value.array items').fit fallback := by
  have hplain : plain fallback (.array items) = plain fallback (.array items') := by
    funext layers names ns s
    rw [← fittings_eq_map, ← fittings_eq_map] at h
    cases s <;> simp only [plain, h] <;> rfl
  rw [fit, fit, hplain]
  rfl

theorem fit_map_congr {fallback : Fallback} {entries entries' : List (String × Value)}
    (h : entries.map (fun p => (p.1, p.2.fit fallback)) =
      entries'.map fun p => (p.1, p.2.fit fallback)) :
    (Value.map entries).fit fallback = (Value.map entries').fit fallback := by
  have hplain : plain fallback (.map entries) = plain fallback (.map entries') := by
    funext layers names ns s
    rw [← entryFittings_eq_map, ← entryFittings_eq_map] at h
    cases s <;> simp only [plain, h] <;> rfl
  rw [fit, fit, hplain]
  rfl

theorem fit_record_congr {fallback : Fallback} {entries entries' : List (String × Value)}
    (h : entries.map (fun p => (p.1, p.2.fit fallback)) =
      entries'.map fun p => (p.1, p.2.fit fallback)) :
    (Value.record entries).fit fallback = (Value.record entries').fit fallback := by
  have hplain : plain fallback (.record entries) = plain fallback (.record entries') := by
    funext layers names ns s
    rw [← entryFittings_eq_map, ← entryFittings_eq_map] at h
    cases s <;> simp only [plain, h] <;> rfl
  rw [fit, fit, hplain]
  rfl

/-! ## The check -/

/-- A value that is no option is held against what is inside the options. -/
theorem checkNarrowing_bare {v : Value} (hv : v.isUnion = false) (r : Value) :
    v.checkNarrowing r = v.checkNarrowing r.bare := by
  fun_induction bare r with
  | case1 i r ih => rw [checkNarrowing, content_of_not_union hv]; exact ih
  | case2 r _ => rfl

/-- Nothing is held against an option but another one. -/
theorem checkNarrowing_union (v : Value) (i : Nat) {r : Value} (hr : r.isUnion = false) :
    (Value.union i v).checkNarrowing r = .ok () := by
  cases r <;> first | rfl | cases hr

theorem isUnion_bare (r : Value) : r.bare.isUnion = false := by
  fun_induction bare r with
  | case1 i r ih => exact ih
  | case2 r h =>
    cases r with
    | union i v => exact absurd rfl (h i v)
    | _ => rfl

/-! ## Maps made of entries -/

namespace EntriesBut

variable {R : Value → Value → Prop} {name : String} {entries entries' : List (String × Value)}

/-- Entries stay related while the same is put into both maps, or values that are related. -/
theorem insertEntry (h : EntriesBut R name entries entries') {key : String} {v v' : Value}
    (hv : v = v' ∨ key = name ∧ R v v') :
    EntriesBut R name (Value.insertEntry key v entries) (Value.insertEntry key v' entries') := by
  induction h with
  | nil => exact .cons ⟨rfl, hv⟩ .nil
  | @cons p p' rest rest' hp hrest ih =>
    obtain ⟨k, u⟩ := p
    obtain ⟨k', u'⟩ := p'
    obtain ⟨rfl, hu⟩ := hp
    unfold Value.insertEntry
    split
    · rename_i hk
      subst hk
      exact .cons ⟨rfl, hv⟩ hrest
    · exact .cons ⟨rfl, hu⟩ ih

theorem ofEntries (h : EntriesBut R name entries entries') :
    ∃ map map', Value.ofEntries entries = .map map ∧ Value.ofEntries entries' = .map map' ∧
      EntriesBut R name map map' := by
  refine ⟨_, _, rfl, rfl, ?_⟩
  suffices hfold : ∀ map map', EntriesBut R name map map' →
      EntriesBut R name (entries.foldl (fun m p => Value.insertEntry p.1 p.2 m) map)
        (entries'.foldl (fun m p => Value.insertEntry p.1 p.2 m) map') from hfold [] [] .nil
  induction h with
  | nil => exact fun _ _ hmap => hmap
  | @cons p p' rest rest' hp _ ih =>
    obtain ⟨k, u⟩ := p
    obtain ⟨k', u'⟩ := p'
    obtain ⟨rfl, hu⟩ := hp
    exact fun map map' hmap => ih _ _ (hmap.insertEntry hu)

end EntriesBut

namespace Transparent

/-- An option around the value itself. -/
theorem here {v : Value} (hv : v.isUnion = false) (i : Nat) : Transparent [] v (.union i v) where
  fit fallback := fit_union fallback hv i
  loosened r h := by
    cases hr : r.isUnion with
    | true =>
      cases r with
      | union j r => rwa [checkNarrowing, content_of_not_union hv] at h
      | _ => cases hr
    | false => exact checkNarrowing_union v i hr
  checked r hslots := by
    have hr : r.isUnion := hslots r (List.mem_singleton.mpr rfl)
    cases r with
    | union j r => rw [checkNarrowing, checkNarrowing, content_of_not_union hv]; rfl
    | _ => cases hr

/-! ## Arrays -/

section Arrays

variable {path : List Step} {w w' : Value}

theorem checkItems_loosened (h : Transparent path w w') (before after rs : List Value)
    (hok : checkItems (before ++ w :: after) rs = .ok ()) :
    checkItems (before ++ w' :: after) rs = .ok () := by
  induction before generalizing rs with
  | nil =>
    cases rs with
    | nil => rfl
    | cons r rs =>
      obtain ⟨⟨⟩, hhead, hrest⟩ := Outcome.bind_eq_ok.mp hok
      exact Outcome.bind_eq_ok.mpr ⟨(), h.loosened r hhead, hrest⟩
  | cons v before ih =>
    cases rs with
    | nil => rfl
    | cons r rs =>
      obtain ⟨⟨⟩, hhead, hrest⟩ := Outcome.bind_eq_ok.mp hok
      exact Outcome.bind_eq_ok.mpr ⟨(), hhead, ih rs hrest⟩

theorem checkItems_checked (h : Transparent path w w') (before after rs : List Value)
    (hslots : ∀ r ∈ rs[before.length]?, ∀ slot ∈ r.standingAt path, slot.isUnion) :
    checkItems (before ++ w' :: after) rs = checkItems (before ++ w :: after) rs := by
  induction before generalizing rs with
  | nil =>
    cases rs with
    | nil => rfl
    | cons r rs =>
      rw [List.nil_append, List.nil_append, checkItems, checkItems, h.checked r (hslots r rfl)]
  | cons v before ih =>
    cases rs with
    | nil => rfl
    | cons r rs =>
      rw [List.cons_append, List.cons_append, checkItems, checkItems, ih rs hslots]

/-- An option around a part of an item. -/
theorem item (h : Transparent path w w') (before after : List Value) :
    Transparent (.item before.length :: path) (.array (before ++ w :: after))
      (.array (before ++ w' :: after)) where
  fit fallback := by
    refine fit_array_congr ?_
    rw [List.map_append, List.map_append, List.map_cons, List.map_cons, h.fit]
  loosened r hok := by
    rw [checkNarrowing_bare rfl] at hok ⊢
    cases hr : r.bare with
    | array rs => rw [hr] at hok; exact checkItems_loosened h before after rs hok
    | union j r' => exact absurd (hr ▸ isUnion_bare r) (by simp [isUnion])
    | _ => rfl
  checked r hslots := by
    rw [checkNarrowing_bare rfl, checkNarrowing_bare rfl r]
    cases hr : r.bare with
    | array rs =>
      refine checkItems_checked h before after rs fun r' hr' slot hslot => hslots slot ?_
      rw [standingAt, hr]
      exact List.mem_flatMap.mpr ⟨r', by rw [Option.mem_toList]; exact hr', hslot⟩
    | union j r' => exact absurd (hr ▸ isUnion_bare r) (by simp [isUnion])
    | _ => rfl

end Arrays

/-! ## Maps and records -/

section Entries

variable {path : List Step} {name : String} {entries entries' : List (String × Value)}

theorem fit_entries (h : EntriesBut (Transparent path) name entries entries')
    (fallback : Fallback) :
    entries'.map (fun p => (p.1, p.2.fit fallback)) =
      entries.map fun p => (p.1, p.2.fit fallback) := by
  induction h with
  | nil => rfl
  | cons hp _ ih =>
    rw [List.map_cons, List.map_cons, ih, hp.1]
    rcases hp.2 with heq | ⟨-, hpart⟩
    · rw [heq]
    · rw [hpart.fit]

variable {given given' : Value}

/-- Entries held one by one against those of a resolved value. -/
theorem checkEntries_loosened (hentry : ∀ key, entry? key given = entries.lookup key)
    (hentry' : ∀ key, entry? key given' = entries'.lookup key)
    (h : EntriesBut (Transparent path) name entries entries') (rs : List (String × Value))
    (hok : checkEntries given rs = .ok ()) : checkEntries given' rs = .ok () := by
  induction rs with
  | nil => rfl
  | cons p rs ih =>
    obtain ⟨key, r⟩ := p
    rw [checkEntries, hentry] at hok
    rw [checkEntries, hentry']
    rcases h.lookup key with heq | ⟨-, v, v', hv, hv', hpart⟩
    · rw [heq]
      cases hlookup : entries.lookup key with
      | none => rw [hlookup] at hok; exact ih hok
      | some v =>
        rw [hlookup] at hok
        obtain ⟨⟨⟩, hhead, hrest⟩ := Outcome.bind_eq_ok.mp hok
        exact Outcome.bind_eq_ok.mpr ⟨(), hhead, ih hrest⟩
    · rw [hv] at hok
      rw [hv']
      obtain ⟨⟨⟩, hhead, hrest⟩ := Outcome.bind_eq_ok.mp hok
      exact Outcome.bind_eq_ok.mpr ⟨(), hpart.loosened r hhead, ih hrest⟩

theorem checkEntries_checked (hentry : ∀ key, entry? key given = entries.lookup key)
    (hentry' : ∀ key, entry? key given' = entries'.lookup key)
    (h : EntriesBut (Transparent path) name entries entries') (rs : List (String × Value))
    (hslots : ∀ p ∈ rs, p.1 = name → ∀ slot ∈ p.2.standingAt path, slot.isUnion) :
    checkEntries given' rs = checkEntries given rs := by
  induction rs with
  | nil => rfl
  | cons p rs ih =>
    obtain ⟨key, r⟩ := p
    have hrest := ih fun p hp => hslots p (List.mem_cons_of_mem _ hp)
    rw [checkEntries, checkEntries, hentry, hentry', hrest]
    rcases h.lookup key with heq | ⟨hname, v, v', hv, hv', hpart⟩
    · rw [heq]
    · rw [hv, hv']
      simp only [hpart.checked r (hslots (key, r) List.mem_cons_self hname)]

/-- An option around a part of an entry of a map. -/
theorem map (h : EntriesBut (Transparent path) name entries entries') :
    Transparent (.member name :: path) (.map entries) (.map entries') where
  fit fallback := fit_map_congr (fit_entries h fallback)
  loosened r hok := by
    rw [checkNarrowing_bare rfl] at hok ⊢
    cases hr : r.bare with
    | map rs | record rs =>
      rw [hr] at hok
      exact checkEntries_loosened (fun _ => rfl) (fun _ => rfl) h rs hok
    | union j r' => exact absurd (hr ▸ isUnion_bare r) (by simp [isUnion])
    | _ => rfl
  checked r hslots := by
    rw [checkNarrowing_bare rfl, checkNarrowing_bare rfl r]
    cases hr : r.bare with
    | map rs | record rs =>
      refine checkEntries_checked (fun _ => rfl) (fun _ => rfl) h rs fun p hp hname slot hslot =>
        hslots slot ?_
      rw [standingAt, hr]
      exact List.mem_flatMap.mpr ⟨p, List.mem_filter.mpr ⟨hp, decide_eq_true hname⟩, hslot⟩
    | union j r' => exact absurd (hr ▸ isUnion_bare r) (by simp [isUnion])
    | _ => rfl

/-- An option around a part of a field of a record. -/
theorem record (h : EntriesBut (Transparent path) name entries entries') :
    Transparent (.member name :: path) (.record entries) (.record entries') where
  fit fallback := fit_record_congr (fit_entries h fallback)
  loosened r hok := by
    rw [checkNarrowing_bare rfl] at hok ⊢
    cases hr : r.bare with
    | record rs =>
      rw [hr] at hok
      exact checkEntries_loosened (fun _ => rfl) (fun _ => rfl) h rs hok
    | union j r' => exact absurd (hr ▸ isUnion_bare r) (by simp [isUnion])
    | _ => rfl
  checked r hslots := by
    rw [checkNarrowing_bare rfl, checkNarrowing_bare rfl r]
    cases hr : r.bare with
    | record rs =>
      refine checkEntries_checked (fun _ => rfl) (fun _ => rfl) h rs fun p hp hname slot hslot =>
        hslots slot ?_
      rw [standingAt, hr]
      exact List.mem_flatMap.mpr ⟨p, List.mem_filter.mpr ⟨hp, decide_eq_true hname⟩, hslot⟩
    | union j r' => exact absurd (hr ▸ isUnion_bare r) (by simp [isUnion])
    | _ => rfl

end Entries

end Transparent

end Value
end RecordTape
