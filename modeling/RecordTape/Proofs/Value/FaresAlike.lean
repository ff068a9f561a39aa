import RecordTape.Proofs.Value.Faced
import RecordTape.Proofs.Value.Rearranged
import RecordTape.Proofs.Value.Standing
/-!
# Parts of which little is asked

Two values that differ in a part fare alike at a schema (`FaresAlike`) if they take the same form
there, and the check for narrowed longs finds the same, in whatever order that form lists its maps.
An array or a map sends its parts on to further schemas, and nothing else is asked of them, so a
difference in a part is carried outwards (`PlainAlike.item`, `PlainAlike.member`). In the end it is
a difference in a map, at a name that is asked for nowhere (`Altered.faresAlike`).
-/

namespace RecordTape

/-! ## Sites inside an object -/

/-- A member of this name makes no difference to an object that is held against the schema: it is no
field of a record, and there is no map. -/
def Schema.overlooks (name : String) : Schema → Bool
  | .map _ => false
  | .record _ fields => fields.all (·.name ≠ name)
  | _ => true

/-- The sites that a part of an array or object meets if the whole is held against the schema at the
site. Items that become bytes are ints first. -/
def Site.inner (p : Site) : Step → List Site
  | .item _ =>
    match p.schema with
    | .array items => [⟨p.names, p.ns, items⟩]
    | .bytes => [⟨[], none, .int⟩]
    | _ => []
  | .member name =>
    match p.schema with
    | .map values => [⟨p.names, p.ns, values⟩]
    | .record _ fields =>
      (fields.filter (·.name = name)).map fun f => ⟨p.names, p.ns, f.schema⟩
    | _ => []

namespace Value

/-- The sites that the part at the end of the path faces while the whole meets the schema at the
site. -/
def facedAt (fallback : Fallback) : List Step → Value → Site → List Site
  | [], v, p => v.faced fallback p
  | step :: path, v, p =>
    (v.partAt [step]).toList.flatMap fun part =>
      (v.faced fallback p).flatMap fun q =>
        (q.inner step).flatMap fun q' => facedAt fallback path part q'

/-! ## Values that fare alike -/

/-- The check of two values comes to the same, against a value in any order. -/
def CheckedAlike (r v v' : Value) : Prop :=
  ∀ ⦃s⦄, Rearranged r s → v'.checkNarrowing s = v.checkNarrowing s

/-- The second value becomes the same as the first one at a site, and the check finds the same. Here
the site asks for neither a definition nor a branch. -/
def PlainAlike (fallback : Fallback) (q : Site) (v v' : Value) : Prop :=
  v'.plainAt fallback q = v.plainAt fallback q ∧
    ∀ u, v.plainAt fallback q = .ok u → CheckedAlike u v v'

/-- The second value fares as the first one at a site: it takes the same form there, and the check
against that form comes to the same. -/
structure FaresAlike (fallback : Fallback) (p : Site) (v v' : Value) : Prop where
  fit : v'.fitAt fallback p = v.fitAt fallback p
  check : ∀ r, v.fitAt fallback p = .ok r → CheckedAlike r v v'

/-- To fare alike is a matter of the sites that are faced. -/
theorem FaresAlike.of_faced {fallback : Fallback} {p : Site} {v v' : Value}
    (hv : v.isUnion = false) (hv' : v'.isUnion = false) (hkind : v'.kind = v.kind)
    (h : ∀ q ∈ faced fallback v p, PlainAlike fallback q v v') : FaresAlike fallback p v v' where
  fit := fit_congr_faced hv hv' hkind fun q hq => (h q hq).1
  check r hr s hs := by
    obtain ⟨q, hq, u, hu, hor⟩ := exists_faced_of_fit hv hr
    have hcheck := (h q hq).2 u hu
    rcases hor with rfl | ⟨i, rfl⟩
    · exact hcheck hs
    · obtain ⟨t, rfl, ht⟩ := hs.exists_content
      rw [checkNarrowing, checkNarrowing, content_of_not_union hv, content_of_not_union hv']
      exact hcheck ht

/-! ## Items -/

section Items

variable {fallback : Fallback} {q : Site} {before after : List Value} {w w' : Value}

theorem mapM_replaced {ε α β : Type} {f : α → Except ε β} {x x' : α} (h : f x' = f x)
    (before after : List α) :
    (before ++ x' :: after).mapM f = (before ++ x :: after).mapM f := by
  rw [List.mapM_append, List.mapM_append, List.mapM_cons, List.mapM_cons, h]

theorem mapM_map_congr {ε α β γ : Type} {f : γ → Except ε β} {g : α → γ} {xs ys : List α}
    (h : List.Forall₂ (fun x y => f (g y) = f (g x)) xs ys) :
    (ys.map g).mapM f = (xs.map g).mapM f := by
  induction h with
  | nil => rfl
  | cons hxy _ ih => rw [List.map_cons, List.map_cons, List.mapM_cons, List.mapM_cons, hxy, ih]

theorem checkItems_replaced {rs : List Value}
    (h : ∀ r ∈ rs[before.length]?, w'.checkNarrowing r = w.checkNarrowing r) :
    checkItems (before ++ w' :: after) rs = checkItems (before ++ w :: after) rs := by
  induction before generalizing rs with
  | nil =>
    cases rs with
    | nil => rfl
    | cons r rs =>
      rw [List.nil_append, List.nil_append, checkItems, checkItems, h r rfl]
  | cons v before ih =>
    cases rs with
    | nil => rfl
    | cons r rs =>
      rw [List.cons_append, List.cons_append, checkItems, checkItems, ih h]

/-- An item that fares alike where the array sends it makes no difference to the array. -/
theorem PlainAlike.item
    (h : ∀ q' ∈ q.inner (.item before.length), FaresAlike fallback q' w w') :
    PlainAlike fallback q (.array (before ++ w :: after)) (.array (before ++ w' :: after)) := by
  obtain ⟨names, ns, s⟩ := q
  have hfittings (x : Value) : fittings fallback (before ++ x :: after) =
      before.map (fit fallback) ++ fit fallback x :: after.map (fit fallback) := by
    rw [fittings_eq_map, List.map_append, List.map_cons]
  cases s with
  | array schema =>
    have hitem := h ⟨names, ns, schema⟩ (List.mem_singleton.mpr rfl)
    simp only [PlainAlike, plainAt, plain, resolveItems, hfittings]
    rw [mapM_replaced hitem.fit]
    refine ⟨rfl, fun u hu s hs => ?_⟩
    obtain ⟨rs, hrs, ⟨⟩⟩ := Outcome.bind_eq_ok.mp hu
    obtain ⟨ss, rfl, hss⟩ := hs.exists_items
    refine checkItems_replaced fun t ht => ?_
    obtain ⟨r, hr, hrt⟩ := exists_left_of_rel (rel_getElem? hss before.length) ht
    exact hitem.check r (Outcome.mapM_getElem? hrs (by simp) hr) hrt
  | bytes =>
    have hitem := h ⟨[], none, .int⟩ (List.mem_singleton.mpr rfl)
    have hbyte : (do toByte (← w'.fit fallback [] none .int)) =
        (do toByte (← w.fit fallback [] none .int)) := congrArg (· >>= toByte) hitem.fit
    simp only [PlainAlike, plainAt, plain, resolveBytes, hfittings]
    rw [mapM_replaced hbyte]
    refine ⟨rfl, fun u hu s hs => ?_⟩
    obtain ⟨b, -, ⟨⟩⟩ := Outcome.bind_eq_ok.mp hu
    cases hs
    rfl
  | decimal base precision scale =>
    refine ⟨rfl, fun u hu => ?_⟩
    obtain ⟨-, -, ⟨⟩⟩ := Outcome.bind_eq_ok.mp hu
  | _ => exact ⟨rfl, fun u hu => by cases hu⟩

end Items

/-! ## Members -/

section Members

variable {fallback : Fallback} {names : Names} {ns : Namespace}

/-- The entries of a name are the same for two values, or what is asked of them is. -/
def SameEntry {α β : Type} (ask : α → β) (es es' : List (String × α)) (name : String) : Prop :=
  es'.lookup name = es.lookup name ∨
    ∃ x x', es.lookup name = some x ∧ es'.lookup name = some x' ∧ ask x' = ask x

/-- Fields are resolved from the entries of their names. -/
theorem resolveFields_congr {fields : List (Field Schema)} {es es' : List (String × Fitting)}
    (h : ∀ f ∈ fields, SameEntry (fun entry => entry names ns f.schema) es es' f.name) :
    resolveFields fallback names ns fields es' = resolveFields fallback names ns fields es := by
  unfold resolveFields
  congr 1
  refine Outcome.mapM_congr fun f hf => ?_
  rcases h f hf with heq | ⟨x, x', hx, hx', hsame⟩
  · rw [heq]
  · rw [hx, hx']
    simp only at hsame ⊢
    rw [hsame]

/-- The check asks for the entries that the other value has. -/
theorem checkEntries_same {es es' rs : List (String × Value)}
    (h : ∀ p ∈ rs, SameEntry (fun v => v.checkNarrowing p.2) es es' p.1) :
    checkEntries (.map es') rs = checkEntries (.map es) rs := by
  induction rs with
  | nil => rfl
  | cons p rs ih =>
    obtain ⟨name, r⟩ := p
    have hrest := ih fun p hp => h p (List.mem_cons_of_mem _ hp)
    rw [checkEntries, checkEntries, hrest, entry?, entry?]
    rcases h (name, r) List.mem_cons_self with heq | ⟨x, x', hx, hx', hsame⟩
    · simp only at heq
      rw [heq]
    · simp only at hx hx' hsame
      rw [hx, hx']
      simp only
      rw [hsame]

/-- Each field of the record that fields were resolved to belongs to one of the schema, and comes
from the entry of its name if there is one. -/
theorem exists_field_of_mem {fields : List (Field Schema)} {entries : List (String × Fitting)}
    {rs : List (String × Value)} {p : String × Value}
    (h : resolveFields fallback names ns fields entries = .ok (.record rs)) (hp : p ∈ rs) :
    ∃ f ∈ fields, f.name = p.1 ∧
      ∀ entry, entries.lookup p.1 = some entry → entry names ns f.schema = .ok p.2 := by
  obtain ⟨_, hrs, ⟨⟩⟩ := Outcome.bind_eq_ok.mp h
  obtain ⟨f, hf, hstep⟩ := Outcome.exists_of_mem_mapM hrs hp
  split at hstep
  · rename_i entry hentry
    obtain ⟨r, hr, ⟨⟩⟩ := Outcome.bind_eq_ok.mp hstep
    refine ⟨f, hf, rfl, fun entry' hentry' => ?_⟩
    cases hentry.symm.trans hentry'
    exact hr
  · rename_i hnone
    obtain ⟨r, hr, ⟨⟩⟩ := Outcome.bind_eq_ok.mp hstep
    refine ⟨f, hf, rfl, fun entry' hentry' => ?_⟩
    cases hnone.symm.trans hentry'

theorem entryFittings_sameEntry {β : Type} {ask : Fitting → β} {es es' : List (String × Value)}
    {name : String} (h : SameEntry (fun v => ask (v.fit fallback)) es es' name) :
    SameEntry ask (entryFittings fallback es) (entryFittings fallback es') name := by
  rw [SameEntry, entryFittings_eq_map, entryFittings_eq_map, lookup_map_snd, lookup_map_snd]
  rcases h with heq | ⟨x, x', hx, hx', hsame⟩
  · exact .inl (congrArg _ heq)
  · rw [hx, hx']
    exact .inr ⟨_, _, rfl, rfl, hsame⟩

/-- Entries other than those of the key make no difference to a schema that overlooks the key. -/
theorem PlainAlike.overlooked {q : Site} {key : String} {es es' : List (String × Value)}
    (hkey : q.schema.overlooks key)
    (h : ∀ name, name ≠ key → es'.lookup name = es.lookup name) :
    PlainAlike fallback q (.map es) (.map es') := by
  obtain ⟨names, ns, s⟩ := q
  cases s with
  | map values => cases hkey
  | record name fields =>
    simp only [Schema.overlooks, List.all_eq_true, decide_eq_true_eq] at hkey
    have hfields : resolveFields fallback names ns fields (entryFittings fallback es') =
        resolveFields fallback names ns fields (entryFittings fallback es) :=
      resolveFields_congr fun f hf => entryFittings_sameEntry (.inl (h f.name (hkey f hf)))
    refine ⟨hfields, fun u hu s hs => ?_⟩
    obtain ⟨rs, -, ⟨⟩⟩ := Outcome.bind_eq_ok.mp hu
    obtain ⟨ss, rfl, hss⟩ := hs.exists_fields
    refine checkEntries_same fun p' hp' => ?_
    obtain ⟨p, hp, hnames, -⟩ := exists_of_mem_right hss hp'
    obtain ⟨f, hf, hname, -⟩ := exists_field_of_mem hu hp
    exact .inl (h p'.1 (hnames ▸ hname ▸ hkey f hf))
  | decimal base precision scale =>
    refine ⟨rfl, fun u hu => ?_⟩
    obtain ⟨-, -, ⟨⟩⟩ := Outcome.bind_eq_ok.mp hu
  | _ => exact ⟨rfl, fun u hu => by cases hu⟩

/-- What is asked of entries that are the same but for a name is the same where it is so for the
two of that name. -/
theorem EntriesBut.sameEntry {α β : Type} {R : α → α → Prop} {ask : α → β} {name key : String}
    {es es' : List (String × α)} (h : EntriesBut R name es es')
    (hask : ∀ w w', key = name → es.lookup key = some w → R w w' → ask w' = ask w) :
    SameEntry ask es es' key := by
  rcases h.lookup key with heq | ⟨hname, w, w', hw, hw', hrel⟩
  · exact .inl heq
  · exact .inr ⟨w, w', hw, hw', hask w w' hname hw hrel⟩

/-- A value that fares alike makes no difference to a map. -/
theorem PlainAlike.value {s : Schema} {name : String} {es es' : List (String × Value)}
    (hnodup : (es.map (·.1)).Nodup)
    (h : EntriesBut (FaresAlike fallback ⟨names, ns, s⟩) name es es') :
    PlainAlike fallback ⟨names, ns, .map s⟩ (.map es) (.map es') := by
  have hentries : resolveEntries names ns s (entryFittings fallback es') =
      resolveEntries names ns s (entryFittings fallback es) := by
    rw [resolveEntries, resolveEntries, entryFittings_eq_map, entryFittings_eq_map]
    congr 1
    refine mapM_map_congr (h.imp fun p p' ⟨hkey, hp⟩ => ?_)
    have hfit : p'.2.fit fallback names ns s = p.2.fit fallback names ns s := by
      rcases hp with heq | ⟨-, hfares⟩
      · rw [heq]
      · exact hfares.fit
    simp only [hkey, hfit]
  refine ⟨hentries, fun u hu t ht => ?_⟩
  obtain ⟨rs, -, ⟨⟩⟩ := Outcome.bind_eq_ok.mp hu
  obtain ⟨listed, ss, rfl, hlisted, horder⟩ := ht.exists_entries
  refine checkEntries_same fun p' hp' => h.sameEntry fun w w' _ hw hfares => ?_
  obtain ⟨p, hp, hnames, hrearranged⟩ :=
    exists_of_mem_right hlisted (horder.perm.mem_iff.mpr hp')
  refine hfares.check p.2 ?_ hrearranged
  obtain ⟨entry, hentry, hfit⟩ := resolveEntries_of_mem hu hp
  obtain ⟨v, hv, rfl⟩ := mem_entryFittings hentry
  -- the keys differ, so the entry is the one that is found by its name
  rw [← hnames] at hw
  cases hw.symm.trans (lookup_of_mem (p := (p.1, v)) hv hnodup)
  exact hfit

/-- A member that fares alike in the fields of its name makes no difference to a record. -/
theorem PlainAlike.field {full : Name} {fields : List (Field Schema)} {name : String}
    {es es' : List (String × Value)}
    (h : EntriesBut (fun w w' => ∀ f ∈ fields, f.name = name →
      FaresAlike fallback ⟨names, ns, f.schema⟩ w w') name es es') :
    PlainAlike fallback ⟨names, ns, .record full fields⟩ (.map es) (.map es') := by
  have hfields : resolveFields fallback names ns fields (entryFittings fallback es') =
      resolveFields fallback names ns fields (entryFittings fallback es) :=
    resolveFields_congr fun f hf => entryFittings_sameEntry
      (h.sameEntry fun w w' hname _ hfares => (hfares f hf hname).fit)
  refine ⟨hfields, fun u hu t ht => ?_⟩
  obtain ⟨rs, -, ⟨⟩⟩ := Outcome.bind_eq_ok.mp hu
  obtain ⟨ss, rfl, hss⟩ := ht.exists_fields
  refine checkEntries_same fun p' hp' => h.sameEntry fun w w' hname hw hfares => ?_
  obtain ⟨p, hp, hnames, hrearranged⟩ := exists_of_mem_right hss hp'
  obtain ⟨f, hf, hfname, hentry⟩ := exists_field_of_mem hu hp
  rw [← hnames] at hw hname
  exact (hfares f hf (hfname.trans hname)).check p.2
    (hentry _ (entryFittings_lookup fallback hw)) hrearranged

/-- A member that fares alike where the object sends it makes no difference to the object. -/
theorem PlainAlike.member {q : Site} {name : String} {es es' : List (String × Value)}
    (hnodup : (es.map (·.1)).Nodup)
    (h : EntriesBut (fun w w' => ∀ q' ∈ q.inner (.member name), FaresAlike fallback q' w w') name
      es es') :
    PlainAlike fallback q (.map es) (.map es') := by
  obtain ⟨names, ns, s⟩ := q
  cases s with
  | map s =>
    exact .value hnodup (h.imp fun p p' hp =>
      hp.imp_right (.imp_right (.imp_right fun hfares => hfares _ (List.mem_singleton.mpr rfl))))
  | record full fields =>
    refine .field (h.imp fun p p' hp => hp.imp_right (.imp_right (.imp_right ?_)))
    intro hfares f hf hname
    exact hfares _ (List.mem_map.mpr ⟨f, List.mem_filter.mpr ⟨hf, decide_eq_true hname⟩, rfl⟩)
  | decimal base precision scale =>
    refine ⟨rfl, fun u hu => ?_⟩
    obtain ⟨-, -, ⟨⟩⟩ := Outcome.bind_eq_ok.mp hu
  | _ => exact ⟨rfl, fun u hu => by cases hu⟩

end Members

/-! ## A map that differs at a name -/

/-- The second value is the first one but for a map at the end of the path, and that is the same but
for the entries of a key. -/
def Altered (key : String) : List Step → Value → Value → Prop
  | [], v, v' => ∃ es es', v = .map es ∧ v' = .map es' ∧
    ∀ name, name ≠ key → es'.lookup name = es.lookup name
  | .item i :: path, v, v' => ∃ before w w' after, before.length = i ∧
    v = .array (before ++ w :: after) ∧ v' = .array (before ++ w' :: after) ∧
    Altered key path w w'
  | .member name :: path, v, v' => ∃ es es', v = .map es ∧ v' = .map es' ∧
    (es.map (·.1)).Nodup ∧ EntriesBut (Altered key path) name es es'

/-- A map altered at a key that is overlooked wherever the map stands fares alike. -/
theorem Altered.faresAlike {key : String} {path : List Step} {v v' : Value} {fallback : Fallback}
    {p : Site} (h : Altered key path v v')
    (hkey : ∀ q ∈ v.facedAt fallback path p, q.schema.overlooks key) :
    FaresAlike fallback p v v' := by
  induction path generalizing v v' p with
  | nil =>
    obtain ⟨es, es', rfl, rfl, hlookup⟩ := h
    exact .of_faced rfl rfl rfl fun q hq => .overlooked (hkey q hq) hlookup
  | cons step path ih =>
    -- the sites of the part are among those of the whole
    have hinner {part : Value} {q q' : Site} (hpart : v.partAt [step] = some part)
        (hq : q ∈ v.faced fallback p) (hq' : q' ∈ q.inner step) :
        ∀ r ∈ part.facedAt fallback path q', r.schema.overlooks key := fun r hr => hkey r <| by
      rw [facedAt, hpart, Option.toList_some, List.flatMap_singleton]
      exact List.mem_flatMap.mpr ⟨q, hq, List.mem_flatMap.mpr ⟨q', hq', hr⟩⟩
    cases step with
    | item i =>
      obtain ⟨before, w, w', after, rfl, rfl, rfl, h⟩ := h
      have hpart : (Value.array (before ++ w :: after)).partAt [.item before.length] = some w := by
        simp [partAt]
      exact .of_faced rfl rfl rfl fun q hq => .item fun q' hq' => ih h (hinner hpart hq hq')
    | member name =>
      obtain ⟨es, es', rfl, rfl, hnodup, h⟩ := h
      refine .of_faced rfl rfl rfl fun q hq => ?_
      have hpart {w : Value} (hw : es.lookup name = some w) :
          (Value.map es).partAt [.member name] = some w := by
        simp only [partAt, hw, Option.bind_some]
      have hentries : EntriesBut (fun w w' => ∀ q' ∈ q.inner (.member name),
          FaresAlike fallback q' w w') name es es' :=
        h.imp_lookup hnodup fun w w' hw h q' hq' => ih h (hinner (hpart hw) hq hq')
      exact .member hnodup hentries

end Value
end RecordTape
