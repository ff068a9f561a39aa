import RecordTape.Proofs.Json.Proper
import RecordTape.Proofs.Value.Meeting
import RecordTape.Proofs.Value.Transparent
/-!
# What stands where an integer was

A value without options and records, as a JSON value stands for, is held path by path against what
it resolves to. Whatever stands at a path of the result was resolved from the part of the value at
that path (`fit_of_standingAt`), so an int that stands where the value has a long is the long cut
down to 32 bits. The check for narrowed longs looks at these places and at no others: if it passes,
every int at the path of a long equals it (`eq_of_checkNarrowing`), and if not, it reports a long
for which some int does not (`exists_of_checkNarrowing`).
-/

namespace RecordTape

namespace Value

/-! ## Ints at the end of a path -/

/-- The number in an int, also in that of a date or time. -/
def int? : Value → Option Int32
  | .int n | .intTime _ n => some n
  | _ => none

/-- The ints that stand at the end of a path, options around them taken off. -/
def intsAt (path : List Step) (r : Value) : List Int32 :=
  (r.standingAt path).filterMap fun slot => slot.bare.int?

section Places

variable {path : List Step} {r slot : Value} {i : Int32}

theorem mem_intsAt : i ∈ r.intsAt path ↔ ∃ slot ∈ r.standingAt path, slot.bare.int? = some i :=
  List.mem_filterMap

theorem mem_intsAt_nil : i ∈ r.intsAt [] ↔ r.bare.int? = some i := by
  rw [mem_intsAt]
  exact ⟨fun ⟨slot, hslot, hi⟩ => List.mem_singleton.mp hslot ▸ hi,
    fun hi => ⟨r, List.mem_singleton.mpr rfl, hi⟩⟩

theorem mem_standingAt_item {k : Nat} :
    slot ∈ r.standingAt (.item k :: path) ↔
      ∃ items r', r.bare = .array items ∧ items[k]? = some r' ∧ slot ∈ r'.standingAt path := by
  rw [standingAt]
  cases hr : r.bare with
  | array items =>
    simp only [List.mem_flatMap, Option.mem_toList]
    constructor
    · rintro ⟨r', hr', hslot⟩
      exact ⟨items, r', rfl, hr', hslot⟩
    · rintro ⟨_, r', ⟨⟩, hr', hslot⟩
      exact ⟨r', hr', hslot⟩
  | _ => exact ⟨fun hslot => absurd hslot List.not_mem_nil, by rintro ⟨_, _, ⟨⟩, -⟩⟩

theorem mem_standingAt_member {name : String} :
    slot ∈ r.standingAt (.member name :: path) ↔
      ∃ entries r', (r.bare = .map entries ∨ r.bare = .record entries) ∧
        (name, r') ∈ entries ∧ slot ∈ r'.standingAt path := by
  have hentries (entries : List (String × Value)) :
      slot ∈ (entries.filter (·.1 = name)).flatMap (fun p => standingAt path p.2) ↔
        ∃ r', (name, r') ∈ entries ∧ slot ∈ r'.standingAt path := by
    simp only [List.mem_flatMap, List.mem_filter, decide_eq_true_eq]
    constructor
    · rintro ⟨⟨k, r'⟩, ⟨hmem, rfl⟩, hslot⟩
      exact ⟨r', hmem, hslot⟩
    · rintro ⟨r', hmem, hslot⟩
      exact ⟨(name, r'), ⟨hmem, rfl⟩, hslot⟩
  rw [standingAt]
  cases hr : r.bare with
  | map entries | record entries =>
    simp only [hentries]
    constructor
    · rintro ⟨r', hmem, hslot⟩
      exact ⟨entries, r', by simp, hmem, hslot⟩
    · rintro ⟨_, r', heq | heq, hmem, hslot⟩ <;> cases heq
      exact ⟨r', hmem, hslot⟩
  | _ =>
    exact ⟨fun hslot => absurd hslot List.not_mem_nil,
      by rintro ⟨_, _, heq | heq, -⟩ <;> cases heq⟩

theorem mem_intsAt_item {k : Nat} :
    i ∈ r.intsAt (.item k :: path) ↔
      ∃ items r', r.bare = .array items ∧ items[k]? = some r' ∧ i ∈ r'.intsAt path := by
  simp only [mem_intsAt, mem_standingAt_item]
  constructor
  · rintro ⟨slot, ⟨items, r', hr, hr', hslot⟩, hi⟩
    exact ⟨items, r', hr, hr', slot, hslot, hi⟩
  · rintro ⟨items, r', hr, hr', slot, hslot, hi⟩
    exact ⟨slot, ⟨items, r', hr, hr', hslot⟩, hi⟩

theorem mem_intsAt_member {name : String} :
    i ∈ r.intsAt (.member name :: path) ↔
      ∃ entries r', (r.bare = .map entries ∨ r.bare = .record entries) ∧
        (name, r') ∈ entries ∧ i ∈ r'.intsAt path := by
  simp only [mem_intsAt, mem_standingAt_member]
  constructor
  · rintro ⟨slot, ⟨entries, r', hr, hr', hslot⟩, hi⟩
    exact ⟨entries, r', hr, hr', slot, hslot, hi⟩
  · rintro ⟨entries, r', hr, hr', slot, hslot, hi⟩
    exact ⟨slot, ⟨entries, r', hr, hr', hslot⟩, hi⟩

/-- An option around the whole makes no difference to the ints in it. -/
theorem intsAt_union (k : Nat) (r : Value) (path : List Step) :
    (Value.union k r).intsAt path = r.intsAt path := by
  cases path with
  | nil => rfl
  | cons step path => cases step <;> rfl

end Places

/-! ## Values of JSON values -/

mutual

/-- The value has no options and no records in it, and the keys of each map differ. -/
def isTree : Value → Bool
  | .union .. | .record _ => false
  | .array items => areTrees items
  | .map entries => (entries.map (·.1)).Nodup && entriesAreTrees entries
  | _ => true

def areTrees : List Value → Bool
  | [] => true
  | v :: rest => isTree v && areTrees rest

def entriesAreTrees : List (String × Value) → Bool
  | [] => true
  | (_, v) :: rest => isTree v && entriesAreTrees rest

end

theorem areTrees_iff {items : List Value} : areTrees items ↔ ∀ v ∈ items, v.isTree := by
  induction items with
  | nil => simp [areTrees]
  | cons v rest ih => simp [areTrees, ih]

theorem entriesAreTrees_iff {entries : List (String × Value)} :
    entriesAreTrees entries ↔ ∀ p ∈ entries, p.2.isTree := by
  induction entries with
  | nil => simp [entriesAreTrees]
  | cons p rest ih => obtain ⟨k, v⟩ := p; simp [entriesAreTrees, ih]

theorem isUnion_of_isTree {v : Value} (h : v.isTree) : v.isUnion = false := by
  cases v <;> first | rfl | cases h

end Value

namespace Json

mutual

/-- A proper JSON value stands for a tree. -/
theorem isTree_of_toValue {v : Value} (j : Json) (hj : j.isProper) (h : j.toValue = .ok v) :
    v.isTree := by
  cases j with
  | int n =>
    obtain ⟨-, rfl⟩ := toValue_int h
    rfl
  | array items =>
    obtain ⟨values, hvalues, ⟨⟩⟩ := Outcome.bind_eq_ok.mp h
    exact Value.areTrees_iff.mpr (areTrees_of_itemsToValues items hj hvalues)
  | object members =>
    obtain ⟨entries, hentries, ⟨⟩⟩ := Outcome.bind_eq_ok.mp h
    simp only [isProper, Bool.and_eq_true, decide_eq_true_eq] at hj
    simp only [Value.isTree, ← (related_of_membersToEntries hentries).map_fst, Bool.and_eq_true,
      decide_eq_true_eq]
    exact ⟨hj.1, Value.entriesAreTrees_iff.mpr (areTrees_of_membersToEntries members hj.2 hentries)⟩
  | _ => cases h; rfl

theorem areTrees_of_itemsToValues {values : List Value} (items : List Json)
    (hitems : areProper items) (h : itemsToValues items = .ok values) :
    ∀ v ∈ values, v.isTree := by
  cases items with
  | nil => cases h; nofun
  | cons item rest =>
    rw [areProper, Bool.and_eq_true] at hitems
    obtain ⟨u, hu, h⟩ := Outcome.bind_eq_ok.mp h
    obtain ⟨us, hus, ⟨⟩⟩ := Outcome.bind_eq_ok.mp h
    intro v hv
    rcases List.mem_cons.mp hv with rfl | hv
    · exact isTree_of_toValue item hitems.1 hu
    · exact areTrees_of_itemsToValues rest hitems.2 hus v hv

theorem areTrees_of_membersToEntries {entries : List (String × Value)}
    (members : List (String × Json)) (hmembers : membersProper members)
    (h : membersToEntries members = .ok entries) : ∀ p ∈ entries, p.2.isTree := by
  cases members with
  | nil => cases h; nofun
  | cons member rest =>
    obtain ⟨k, item⟩ := member
    rw [membersProper, Bool.and_eq_true] at hmembers
    obtain ⟨u, hu, h⟩ := Outcome.bind_eq_ok.mp h
    obtain ⟨us, hus, ⟨⟩⟩ := Outcome.bind_eq_ok.mp h
    intro p hp
    rcases List.mem_cons.mp hp with rfl | hp
    · exact isTree_of_toValue item hmembers.1 hu
    · exact areTrees_of_membersToEntries rest hmembers.2 hus p hp

end

end Json

namespace Value

/-! ## The check -/

/-- The long stands at a path where some int of the other value differs from it. -/
def Differs (given r : Value) (n : Int64) : Prop :=
  ∃ path i, given.partAt path = some (.long n) ∧ i ∈ r.intsAt path ∧ i.toInt64 ≠ n

theorem checkInt_eq_error {n m : Int64} {i : Int32} (h : checkInt n i = .error m) :
    n = m ∧ i.toInt64 ≠ m := by
  unfold checkInt at h
  split at h <;> cases h
  exact ⟨rfl, ‹_›⟩

theorem Differs.item {givens rs : List Value} {k : Nat} {g r : Value} {n : Int64}
    (h : Differs g r n) (hg : givens[k]? = some g) (hr : rs[k]? = some r) :
    Differs (.array givens) (.array rs) n := by
  obtain ⟨path, i, hpart, hi, hne⟩ := h
  exact ⟨.item k :: path, i, by rw [partAt, hg]; exact hpart,
    mem_intsAt_item.mpr ⟨rs, r, rfl, hr, hi⟩, hne⟩

theorem Differs.member {givens rs : List (String × Value)} {name : String} {g r resolved : Value}
    {n : Int64} (h : Differs g r n) (hg : givens.lookup name = some g) (hr : (name, r) ∈ rs)
    (hresolved : resolved = .map rs ∨ resolved = .record rs) :
    Differs (.map givens) resolved n := by
  obtain ⟨path, i, hpart, hi, hne⟩ := h
  refine ⟨.member name :: path, i, by rw [partAt, hg]; exact hpart, ?_, hne⟩
  refine mem_intsAt_member.mpr ⟨rs, r, ?_, hr, hi⟩
  rcases hresolved with rfl | rfl
  · exact .inl rfl
  · exact .inr rfl

mutual

/-- A long that is reported differs from an int at one of its places. -/
theorem exists_of_checkNarrowing {given : Value} {n : Int64} (r : Value) (hgiven : given.isTree)
    (h : given.checkNarrowing r = .error n) : given.Differs r n := by
  cases r with
  | int i | intTime t i =>
    cases given with
    | long m =>
      obtain ⟨rfl, hne⟩ := checkInt_eq_error h
      exact ⟨[], i, rfl, mem_intsAt_nil.mpr rfl, hne⟩
    | _ => cases h
  | union k r =>
    rw [checkNarrowing, content_of_not_union (isUnion_of_isTree hgiven)] at h
    obtain ⟨path, i, hpart, hi, hne⟩ := exists_of_checkNarrowing r hgiven h
    exact ⟨path, i, hpart, by rwa [intsAt_union], hne⟩
  | array rs =>
    cases given with
    | array givens =>
      obtain ⟨k, g, r, hg, hr, hdiffers⟩ := exists_of_checkItems rs (areTrees_iff.mp hgiven) h
      exact hdiffers.item hg hr
    | _ => cases h
  | map rs | record rs =>
    cases given with
    | map givens =>
      simp only [isTree, Bool.and_eq_true] at hgiven
      obtain ⟨name, g, r, hg, hr, hdiffers⟩ :=
        exists_of_checkEntries rs (entriesAreTrees_iff.mp hgiven.2) h
      exact hdiffers.member hg hr (by simp)
    | record => cases hgiven
    | _ => cases h
  | _ => cases h

theorem exists_of_checkItems {givens : List Value} {n : Int64} (rs : List Value)
    (hgivens : ∀ v ∈ givens, v.isTree) (h : checkItems givens rs = .error n) :
    ∃ (k : Nat) (g r : Value), givens[k]? = some g ∧ rs[k]? = some r ∧ g.Differs r n := by
  cases rs with
  | nil => cases givens <;> cases h
  | cons r rs =>
    cases givens with
    | nil => cases h
    | cons g givens =>
      rw [checkItems] at h
      cases hcheck : g.checkNarrowing r with
      | error m =>
        rw [hcheck] at h
        cases h
        exact ⟨0, g, r, rfl, rfl,
          exists_of_checkNarrowing r (hgivens g List.mem_cons_self) hcheck⟩
      | ok _ =>
        rw [hcheck] at h
        obtain ⟨k, g', r', hg, hr, hdiffers⟩ :=
          exists_of_checkItems rs (fun v hv => hgivens v (List.mem_cons_of_mem _ hv)) h
        exact ⟨k + 1, g', r', hg, hr, hdiffers⟩

theorem exists_of_checkEntries {givens : List (String × Value)} {n : Int64}
    (rs : List (String × Value)) (hgivens : ∀ p ∈ givens, p.2.isTree)
    (h : checkEntries (.map givens) rs = .error n) :
    ∃ name g r, givens.lookup name = some g ∧ (name, r) ∈ rs ∧ g.Differs r n := by
  cases rs with
  | nil => cases h
  | cons p rs =>
    obtain ⟨name, r⟩ := p
    have hlater (h : checkEntries (.map givens) rs = .error n) :
        ∃ name' g r', givens.lookup name' = some g ∧ (name', r') ∈ (name, r) :: rs ∧
          g.Differs r' n := by
      obtain ⟨name', g, r', hg, hr, hdiffers⟩ := exists_of_checkEntries rs hgivens h
      exact ⟨name', g, r', hg, List.mem_cons_of_mem _ hr, hdiffers⟩
    rw [checkEntries] at h
    cases hg : entry? name (.map givens) with
    | none => rw [hg] at h; exact hlater h
    | some g =>
      rw [hg] at h
      cases hcheck : g.checkNarrowing r with
      | error m =>
        simp only [hcheck] at h
        cases h
        exact ⟨name, g, r, hg, List.mem_cons_self,
          exists_of_checkNarrowing r (hgivens (name, g) (mem_of_lookup hg)) hcheck⟩
      | ok _ =>
        simp only [hcheck] at h
        exact hlater h

end

theorem checkItems_get {givens resolved : List Value} {i : Nat} {g r : Value}
    (h : checkItems givens resolved = .ok ()) (hg : givens[i]? = some g)
    (hr : resolved[i]? = some r) : g.checkNarrowing r = .ok () := by
  induction resolved generalizing givens i with
  | nil => cases hr
  | cons r' resolved ih =>
    cases givens with
    | nil => cases hg
    | cons g' givens =>
      rw [checkItems] at h
      obtain ⟨_, hhead, hrest⟩ := Outcome.bind_eq_ok.mp h
      cases i with
      | zero => cases hg; cases hr; exact hhead
      | succ i => exact ih hrest hg hr

theorem checkEntries_of_mem {given g r : Value} {rs : List (String × Value)} {name : String}
    (h : checkEntries given rs = .ok ()) (hg : entry? name given = some g) (hr : (name, r) ∈ rs) :
    g.checkNarrowing r = .ok () := by
  induction rs with
  | nil => cases hr
  | cons p rs ih =>
    obtain ⟨k, r'⟩ := p
    rw [checkEntries] at h
    rcases List.mem_cons.mp hr with heq | hr
    · cases heq
      rw [hg] at h
      obtain ⟨_, hhead, -⟩ := Outcome.bind_eq_ok.mp h
      exact hhead
    · split at h
      · obtain ⟨_, -, hrest⟩ := Outcome.bind_eq_ok.mp h
        exact ih hrest hr
      · exact ih h hr

theorem isUnion_of_partAt {v : Value} {path : List Step} {n : Int64}
    (h : v.partAt path = some (.long n)) : v.isUnion = false := by
  cases v with
  | union i v =>
    cases path with
    | nil => cases h
    | cons step path => cases step <;> cases h
  | _ => rfl

/-- If the check passes, every int at the path of a long equals the long. -/
theorem eq_of_checkNarrowing {given r : Value} {path : List Step} {n : Int64} {i : Int32}
    (h : given.checkNarrowing r = .ok ()) (hn : given.partAt path = some (.long n))
    (hi : i ∈ r.intsAt path) : i.toInt64 = n := by
  induction path generalizing given r with
  | nil =>
    rw [checkNarrowing_bare (isUnion_of_partAt hn)] at h
    cases hn
    have hint := mem_intsAt_nil.mp hi
    cases hr : r.bare with
    | int m | intTime t m =>
      rw [hr] at h hint
      cases hint
      unfold checkNarrowing checkInt at h
      simp only at h
      split at h
      · assumption
      · cases h
    | _ => rw [hr] at hint; cases hint
  | cons step path ih =>
    rw [checkNarrowing_bare (isUnion_of_partAt hn)] at h
    cases step with
    | item k =>
      obtain ⟨rs, r', hr, hr', hi⟩ := mem_intsAt_item.mp hi
      rw [hr] at h
      cases given with
      | array givens =>
        obtain ⟨g, hg, hn⟩ := Option.bind_eq_some_iff.mp hn
        exact ih (checkItems_get h hg hr') hn hi
      | _ => cases hn
    | member name =>
      obtain ⟨rs, r', hr, hr', hi⟩ := mem_intsAt_member.mp hi
      cases given with
      | map givens =>
        obtain ⟨g, hg, hn⟩ := Option.bind_eq_some_iff.mp hn
        rcases hr with hr | hr <;> rw [hr] at h <;>
          exact ih (checkEntries_of_mem h hg hr') hn hi
      | _ => cases hn

/-! ## Resolution -/

/-- An option around what a value became is passed through. -/
theorem bare_of_meet {v r : Value} (hr : r.isUnion = false) (h : v = r ∨ ∃ i, v = .union i r) :
    v.bare = r := by
  have hbare : r.bare = r := by cases r <;> first | rfl | cases hr
  rcases h with rfl | ⟨i, rfl⟩
  · exact hbare
  · exact hbare

/-- What stands at a path of the result was resolved from the part of the value at the path. -/
theorem fit_of_standingAt {fallback : Fallback} {given r g slot : Value} {names : Names}
    {ns : Namespace} {s : Schema} {path : List Step} (hgiven : given.isTree)
    (h : given.fit fallback names ns s = .ok r) (hg : given.partAt path = some g)
    (hslot : slot ∈ r.standingAt path) :
    ∃ ns' s', g.fit fallback names ns' s' = .ok slot := by
  induction path generalizing given r ns s with
  | nil =>
    cases hg
    cases List.mem_singleton.mp hslot
    exact ⟨ns, s, h⟩
  | cons step path ih =>
    obtain ⟨layers, ns', s', w, hplain, hw⟩ := meet_ok h
    cases step with
    | item k =>
      obtain ⟨rs, r', hr, hr', hslot⟩ := mem_standingAt_item.mp hslot
      cases given with
      | array givens =>
        obtain ⟨g', hg', hg⟩ := Option.bind_eq_some_iff.mp hg
        have htree := areTrees_iff.mp hgiven g' (List.mem_of_getElem? hg')
        rcases plain_array hplain with ⟨schema, hitems⟩ | hbytes
        · obtain ⟨resolved, hall, ⟨⟩⟩ := Outcome.bind_eq_ok.mp hitems
          cases (bare_of_meet rfl hw).symm.trans hr
          exact ih htree (Outcome.mapM_getElem? hall (fittings_getElem? fallback hg') hr') hg hslot
        · obtain ⟨b, -, ⟨⟩⟩ := Outcome.bind_eq_ok.mp hbytes
          cases (bare_of_meet rfl hw).symm.trans hr
      | _ => cases hg
    | member name =>
      obtain ⟨rs, r', hr, hr', hslot⟩ := mem_standingAt_member.mp hslot
      cases given with
      | map givens =>
        simp only [isTree, Bool.and_eq_true, decide_eq_true_eq] at hgiven
        obtain ⟨g', hg', hg⟩ := Option.bind_eq_some_iff.mp hg
        have htree := entriesAreTrees_iff.mp hgiven.2 (name, g') (mem_of_lookup hg')
        rcases plain_map hplain with ⟨schema, hentries⟩ | ⟨fields, hfields⟩
        · obtain ⟨resolved, -, ⟨⟩⟩ := Outcome.bind_eq_ok.mp hentries
          rw [bare_of_meet rfl hw] at hr
          rcases hr with hr | hr <;> cases hr
          obtain ⟨entry, hentry, hfit⟩ := resolveEntries_of_mem hentries hr'
          obtain ⟨v, hv, rfl⟩ := mem_entryFittings hentry
          -- the keys differ, so the entry is the one that is found by its name
          cases hg'.symm.trans (lookup_of_mem hv hgiven.1)
          exact ih htree hfit hg hslot
        · obtain ⟨resolved, -, ⟨⟩⟩ := Outcome.bind_eq_ok.mp hfields
          rw [bare_of_meet rfl hw] at hr
          rcases hr with hr | hr <;> cases hr
          obtain ⟨schema, hfit⟩ :=
            resolveFields_of_mem hfields (entryFittings_lookup fallback hg') hr'
          exact ih htree hfit hg hslot
      | _ => cases hg

/-- A long that became an int was cut down to it. -/
theorem eq_toInt32_of_fit {fallback : Fallback} {n : Int64} {slot : Value} {names : Names}
    {ns : Namespace} {s : Schema} {i : Int32}
    (h : (Value.long n).fit fallback names ns s = .ok slot) (hi : slot.bare.int? = some i) :
    i = n.toInt32 := by
  obtain ⟨layers, ns', s', w, hplain, hw⟩ := meet_ok h
  have hleaf : resolveLeaf (.long n) s' = .ok w := hplain
  cases s' with
  | int =>
    cases hleaf
    rw [bare_of_meet rfl hw] at hi
    cases hi
    rfl
  | long | float | double | longTime =>
    cases hleaf
    rw [bare_of_meet rfl hw] at hi
    cases hi
  | decimal base precision scale =>
    obtain ⟨-, -, ⟨⟩⟩ := Outcome.bind_eq_ok.mp hleaf
  | _ => cases hleaf

/-- An int that stands where the value has a long is the long cut down. -/
theorem eq_toInt32_of_intsAt {fallback : Fallback} {given r : Value} {names : Names}
    {ns : Namespace} {s : Schema} {path : List Step} {n : Int64} {i : Int32}
    (hgiven : given.isTree) (h : given.fit fallback names ns s = .ok r)
    (hn : given.partAt path = some (.long n)) (hi : i ∈ r.intsAt path) : i = n.toInt32 := by
  obtain ⟨slot, hslot, hi⟩ := mem_intsAt.mp hi
  obtain ⟨ns', s', hfit⟩ := fit_of_standingAt hgiven h hn hslot
  exact eq_toInt32_of_fit hfit hi

end Value
end RecordTape
