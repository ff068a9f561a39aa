import RecordTape.Datum.Typed
import RecordTape.Proofs.Value.Occurrences
import RecordTape.Proofs.Writer.Options
import RecordTape.Proofs.Writer.RangeCheck
/-!
# Structures that give a field more than once

A typed datum may give a field of a structure several times. It is resolved as the datum is that has
the last of them only, and checked for narrowed longs as the datum is that has the first of them
only (`encodeAlone_lasts`). So a long of a last field may be cut down and written because a first
one fits, and a datum may be refused for a long that nothing was made of
(`encodeAlone_first_field`).

The datum with the last fields holds the same maps, but for those of earlier fields. An order of the
one datum goes with an order of the other (`paired_lasts`), and in these two orders they are
compared.
-/

namespace RecordTape

namespace Typed

/-! ## The last fields of a datum -/

mutual

/-- The datum with the last field of each name in its structures, in whatever depth they are. -/
def lasts : Typed → Typed
  | .some d => .some (lasts d)
  | .seq items => .seq (lastsOfItems items)
  | .tuple items => .tuple (lastsOfItems items)
  | .map entries => .map (lastsOfEntries entries)
  | .struct fields => .struct (lastOfEach (lastsOfFields fields))
  | .newtype d => .newtype (lasts d)
  | .newtypeVariant i name d => .newtypeVariant i name (lasts d)
  | .tupleVariant i name items => .tupleVariant i name (lastsOfItems items)
  | .structVariant i name fields => .structVariant i name (lastOfEach (lastsOfFields fields))
  | d => d

def lastsOfItems : List Typed → List Typed
  | [] => []
  | d :: rest => lasts d :: lastsOfItems rest

def lastsOfEntries : List (Typed × Typed) → List (Typed × Typed)
  | [] => []
  | (k, d) :: rest => (lasts k, lasts d) :: lastsOfEntries rest

def lastsOfFields : List (String × Typed) → List (String × Typed)
  | [] => []
  | (name, d) :: rest => (name, lasts d) :: lastsOfFields rest

end

/-! ## Their values -/

theorem fieldsToValues_eq_ok {fields : List (String × Typed)} {vs : List (String × Value)} :
    fieldsToValues fields = .ok vs ↔
      Value.EntriesRelated (fun d v => toValue d = .ok v) fields vs := by
  induction fields generalizing vs with
  | nil =>
    constructor
    · rintro ⟨⟩; exact .nil
    · rintro ⟨⟩; rfl
  | cons p rest ih =>
    obtain ⟨name, d⟩ := p
    rw [fieldsToValues]
    constructor
    · intro h
      obtain ⟨v, hv, h⟩ := Outcome.bind_eq_ok.mp h
      obtain ⟨vs, hvs, ⟨⟩⟩ := Outcome.bind_eq_ok.mp h
      exact .cons ⟨rfl, hv⟩ (ih.mp hvs)
    · rintro (_ | ⟨⟨hname, hv⟩, hvs⟩)
      subst hname
      exact Outcome.bind_eq_ok.mpr ⟨_, hv, Outcome.bind_eq_ok.mpr ⟨_, ih.mpr hvs, rfl⟩⟩

/-- A structure without its earlier fields stands for the record without them. -/
theorem fieldsToValues_lastOfEach {fields : List (String × Typed)} {vs : List (String × Value)}
    (h : fieldsToValues fields = .ok vs) :
    fieldsToValues (lastOfEach fields) = .ok (lastOfEach vs) :=
  fieldsToValues_eq_ok.mpr (fieldsToValues_eq_ok.mp h).lastOfEach

theorem lasts_of_intToValue {width : IntWidth} {n : Int} {v : Value}
    (h : intToValue width n = .ok v) : v.lasts = v := by
  unfold intToValue at h
  split at h
  · cases h; rfl
  · split at h <;> cases h; rfl
  · cases h; split <;> rfl
  · cases h; rfl

theorem lasts_variant (i : Nat) (name : String) (content : Value) :
    (variant i name content).lasts = variant i name content.lasts := by
  rfl

theorem insertEntry_map (f : Value → Value) (key : String) (v : Value)
    (entries : List (String × Value)) :
    Value.insertEntry key (f v) (entries.map fun p => (p.1, f p.2)) =
      (Value.insertEntry key v entries).map fun p => (p.1, f p.2) := by
  induction entries with
  | nil => rfl
  | cons p rest ih =>
    obtain ⟨k, u⟩ := p
    rw [List.map_cons, Value.insertEntry, Value.insertEntry]
    split
    · rfl
    · rw [ih, List.map_cons]

theorem lasts_ofEntries (entries : List (String × Value)) :
    (Value.ofEntries entries).lasts =
      Value.ofEntries (Value.prunedEntries lastOfEach entries) := by
  suffices hfold : ∀ map : List (String × Value),
      (entries.foldl (fun m p => Value.insertEntry p.1 p.2 m) map).map
          (fun p => (p.1, p.2.lasts)) =
        (Value.prunedEntries lastOfEach entries).foldl (fun m p => Value.insertEntry p.1 p.2 m)
          (map.map fun p => (p.1, p.2.lasts)) by
    rw [Value.ofEntries, Value.lasts, Value.pruned, Value.prunedEntries_eq_map]
    exact congrArg Value.map (hfold [])
  induction entries with
  | nil => exact fun _ => rfl
  | cons p rest ih =>
    obtain ⟨k, v⟩ := p
    intro map
    rw [List.foldl_cons, ih, Value.prunedEntries, List.foldl_cons, ← insertEntry_map]
    rfl

mutual

/-- If the datum stands for a value, the last fields of it stand for the last fields of that. -/
theorem toValue_lasts {v : Value} (d : Typed) (h : toValue d = .ok v) :
    toValue d.lasts = .ok v.lasts := by
  cases d with
  | int width n => rw [lasts_of_intToValue h]; exact h
  | some d =>
    obtain ⟨u, hu, ⟨⟩⟩ := Outcome.bind_eq_ok.mp h
    exact Outcome.bind_eq_ok.mpr ⟨_, toValue_lasts d hu, rfl⟩
  | newtype d => exact toValue_lasts d h
  | seq items | tuple items =>
    obtain ⟨vs, hvs, ⟨⟩⟩ := Outcome.bind_eq_ok.mp h
    exact Outcome.bind_eq_ok.mpr ⟨_, itemsToValues_lasts items hvs, rfl⟩
  | map entries =>
    obtain ⟨vs, hvs, ⟨⟩⟩ := Outcome.bind_eq_ok.mp h
    refine Outcome.bind_eq_ok.mpr ⟨_, entriesToValues_lasts entries hvs, ?_⟩
    rw [lasts_ofEntries]
    rfl
  | struct fields =>
    obtain ⟨vs, hvs, ⟨⟩⟩ := Outcome.bind_eq_ok.mp h
    have hfields := fieldsToValues_lastOfEach (fieldsToValues_lasts fields hvs)
    exact Outcome.bind_eq_ok.mpr ⟨_, hfields, rfl⟩
  | newtypeVariant i name d =>
    obtain ⟨u, hu, ⟨⟩⟩ := Outcome.bind_eq_ok.mp h
    rw [lasts_variant]
    exact Outcome.bind_eq_ok.mpr ⟨_, toValue_lasts d hu, rfl⟩
  | tupleVariant i name items =>
    obtain ⟨vs, hvs, ⟨⟩⟩ := Outcome.bind_eq_ok.mp h
    have hitems : Value.prunedItems lastOfEach (vs.map (.union i)) =
        (Value.prunedItems lastOfEach vs).map (.union i) := by
      rw [Value.prunedItems_eq_map, Value.prunedItems_eq_map, List.map_map, List.map_map]
      rfl
    rw [lasts_variant, Value.lasts, Value.pruned, hitems]
    exact Outcome.bind_eq_ok.mpr ⟨_, itemsToValues_lasts items hvs, rfl⟩
  | structVariant i name fields =>
    obtain ⟨vs, hvs, ⟨⟩⟩ := Outcome.bind_eq_ok.mp h
    have hfields := fieldsToValues_lastOfEach (fieldsToValues_lasts fields hvs)
    rw [lasts_variant]
    exact Outcome.bind_eq_ok.mpr ⟨_, hfields, rfl⟩
  | refuse text => cases h
  | _ => cases h; rfl

theorem itemsToValues_lasts {vs : List Value} (items : List Typed)
    (h : itemsToValues items = .ok vs) :
    itemsToValues (lastsOfItems items) = .ok (Value.prunedItems lastOfEach vs) := by
  cases items with
  | nil => cases h; rfl
  | cons d rest =>
    obtain ⟨u, hu, h⟩ := Outcome.bind_eq_ok.mp h
    obtain ⟨us, hus, ⟨⟩⟩ := Outcome.bind_eq_ok.mp h
    exact Outcome.bind_eq_ok.mpr
      ⟨_, toValue_lasts d hu, Outcome.bind_eq_ok.mpr ⟨_, itemsToValues_lasts rest hus, rfl⟩⟩

theorem entriesToValues_lasts {vs : List (String × Value)} (entries : List (Typed × Typed))
    (h : entriesToValues entries = .ok vs) :
    entriesToValues (lastsOfEntries entries) = .ok (Value.prunedEntries lastOfEach vs) := by
  cases entries with
  | nil => cases h; rfl
  | cons p rest =>
    obtain ⟨k, d⟩ := p
    obtain ⟨key, hkey, h⟩ := Outcome.bind_eq_ok.mp h
    refine Outcome.bind_eq_ok.mpr ⟨_, toValue_lasts k hkey, ?_⟩
    cases key with
    | string text =>
      obtain ⟨u, hu, h⟩ := Outcome.bind_eq_ok.mp h
      obtain ⟨us, hus, ⟨⟩⟩ := Outcome.bind_eq_ok.mp h
      exact Outcome.bind_eq_ok.mpr
        ⟨_, toValue_lasts d hu, Outcome.bind_eq_ok.mpr ⟨_, entriesToValues_lasts rest hus, rfl⟩⟩
    | _ => cases h

theorem fieldsToValues_lasts {vs : List (String × Value)} (fields : List (String × Typed))
    (h : fieldsToValues fields = .ok vs) :
    fieldsToValues (lastsOfFields fields) = .ok (Value.prunedEntries lastOfEach vs) := by
  cases fields with
  | nil => cases h; rfl
  | cons p rest =>
    obtain ⟨name, d⟩ := p
    obtain ⟨u, hu, h⟩ := Outcome.bind_eq_ok.mp h
    obtain ⟨us, hus, ⟨⟩⟩ := Outcome.bind_eq_ok.mp h
    exact Outcome.bind_eq_ok.mpr
      ⟨_, toValue_lasts d hu, Outcome.bind_eq_ok.mpr ⟨_, fieldsToValues_lasts rest hus, rfl⟩⟩

end

end Typed

/-! ## Their orders -/

namespace Value

/-- A value in another order has its last fields in that order. -/
theorem rearranged_lasts {v w : Value} (h : Rearranged v w) : Rearranged v.lasts w.lasts := by
  induction h with
  | refl v => exact .refl _
  | array hlen _ ih =>
    rw [lasts, lasts, pruned, pruned, prunedItems_eq_map, prunedItems_eq_map]
    exact .ofItems (List.forall₂_map_left_iff.mpr (List.forall₂_map_right_iff.mpr
      (forall₂_of_zip (R := fun v w => Rearranged v.lasts w.lasts) hlen ih)))
  | map hnames _ horder ih =>
    rw [lasts, lasts, pruned, pruned, prunedEntries_eq_map, prunedEntries_eq_map]
    exact .ofEntries (List.forall₂_map_left_iff.mpr (List.forall₂_map_right_iff.mpr
      (entriesRelated_of_zip (R := fun v w => Rearranged v.lasts w.lasts) hnames ih)))
      (horder.mapValues _)
  | union i _ ih => exact .union i ih
  | record hnames _ ih =>
    rw [lasts, lasts, pruned, pruned, prunedEntries_eq_map, prunedEntries_eq_map]
    refine .ofFields (EntriesRelated.lastOfEach ?_)
    exact List.forall₂_map_left_iff.mpr (List.forall₂_map_right_iff.mpr
      (entriesRelated_of_zip (R := fun v w => Rearranged v.lasts w.lasts) hnames ih))

theorem prunedEntries_of_lasts {ws us : List (String × Value)}
    (h : EntriesRelated (fun w u => w = u.lasts) ws us) : ws = prunedEntries lastOfEach us := by
  induction h with
  | nil => rfl
  | cons hp _ ih => rw [prunedEntries, ← ih]; exact congrArg (· :: _) (Prod.ext hp.1 hp.2)

mutual

/-- The last fields in another order are those of the value in some order. -/
theorem exists_of_rearranged_lasts {w : Value} (v : Value) (h : Rearranged v.lasts w) :
    ∃ u, Rearranged v u ∧ w = u.lasts := by
  cases v with
  | union i v =>
    obtain ⟨w, rfl, hw⟩ := h.exists_content
    obtain ⟨u, hu, rfl⟩ := exists_of_rearranged_lasts v hw
    exact ⟨.union i u, .union i hu, rfl⟩
  | array items =>
    obtain ⟨ws, rfl, hws⟩ := h.exists_items
    obtain ⟨us, hus, rfl⟩ := exists_of_rearranged_lastsOfItems items hws
    exact ⟨.array us, .ofItems hus, rfl⟩
  | map entries =>
    obtain ⟨fs, ws, rfl, hfs, horder⟩ := h.exists_entries
    obtain ⟨us, hus, hlasts⟩ := exists_of_rearranged_lastsOfEntries entries hfs
    obtain ⟨us', hlasts', horder'⟩ := horder.symm.comm And.left hlasts
    exact ⟨.map us', .ofEntries hus horder'.symm,
      congrArg Value.map (prunedEntries_of_lasts hlasts')⟩
  | record fields =>
    obtain ⟨ws, rfl, hws⟩ := h.exists_fields
    obtain ⟨us, hus, rfl⟩ := exists_of_rearranged_lastsOfFields fields hws
    exact ⟨.record us, .ofFields hus, rfl⟩
  | _ => cases h; exact ⟨_, .refl _, rfl⟩
termination_by structural v

theorem exists_of_rearranged_lastsOfItems {ws : List Value} (items : List Value)
    (h : List.Forall₂ Rearranged (prunedItems lastOfEach items) ws) :
    ∃ us, List.Forall₂ Rearranged items us ∧ ws = prunedItems lastOfEach us := by
  cases items with
  | nil => cases h; exact ⟨[], .nil, rfl⟩
  | cons v rest =>
    obtain ⟨w, ws, hw, hws, rfl⟩ := List.forall₂_cons_left_iff.mp h
    obtain ⟨u, hu, rfl⟩ := exists_of_rearranged_lasts v hw
    obtain ⟨us, hus, rfl⟩ := exists_of_rearranged_lastsOfItems rest hws
    exact ⟨u :: us, .cons hu hus, rfl⟩
termination_by structural items

theorem exists_of_rearranged_lastsOfEntries {ws : List (String × Value)}
    (entries : List (String × Value))
    (h : EntriesRelated Rearranged (prunedEntries lastOfEach entries) ws) :
    ∃ us, EntriesRelated Rearranged entries us ∧ EntriesRelated (fun w u => w = u.lasts) ws us := by
  cases entries with
  | nil => cases h; exact ⟨[], .nil, .nil⟩
  | cons p rest =>
    obtain ⟨name, v⟩ := p
    obtain ⟨⟨_, w⟩, ws, ⟨rfl, hw⟩, hws, rfl⟩ := List.forall₂_cons_left_iff.mp h
    obtain ⟨u, hu, rfl⟩ := exists_of_rearranged_lasts v hw
    obtain ⟨us, hus, hlasts⟩ := exists_of_rearranged_lastsOfEntries rest hws
    exact ⟨(name, u) :: us, .cons ⟨rfl, hu⟩ hus, .cons ⟨rfl, rfl⟩ hlasts⟩
termination_by structural entries

/-- A field that is dropped keeps the order it has. -/
theorem exists_of_rearranged_lastsOfFields {ws : List (String × Value)}
    (fields : List (String × Value))
    (h : EntriesRelated Rearranged (lastOfEach (prunedEntries lastOfEach fields)) ws) :
    ∃ us, EntriesRelated Rearranged fields us ∧
      ws = lastOfEach (prunedEntries lastOfEach us) := by
  cases fields with
  | nil => cases h; exact ⟨[], .nil, rfl⟩
  | cons p rest =>
    obtain ⟨name, v⟩ := p
    rw [prunedEntries, lastOfEach_cons] at h
    split at h
    · rename_i hlater
      obtain ⟨us, hus, rfl⟩ := exists_of_rearranged_lastsOfFields rest h
      refine ⟨(name, v) :: us, .cons ⟨rfl, .refl v⟩ hus, ?_⟩
      rw [prunedEntries, lastOfEach_cons, if_pos (EntriesRelated.map_fst h ▸ hlater)]
    · rename_i hlast
      obtain ⟨⟨_, w⟩, ws, ⟨rfl, hw⟩, hws, rfl⟩ := List.forall₂_cons_left_iff.mp h
      obtain ⟨u, hu, rfl⟩ := exists_of_rearranged_lasts v hw
      obtain ⟨us, hus, rfl⟩ := exists_of_rearranged_lastsOfFields rest hws
      refine ⟨(name, u) :: us, .cons ⟨rfl, hu⟩ hus, ?_⟩
      rw [prunedEntries, lastOfEach_cons, if_neg (EntriesRelated.map_fst hws ▸ hlast)]
      rfl
termination_by structural fields

end

/-- The orders of a value and those of its last fields go together. -/
theorem paired_lasts (v : Value) : Paired (fun w w' => w' = w.lasts) v v.lasts where
  listed := rfl
  forth w hw := ⟨w.lasts, rearranged_lasts hw, rfl⟩
  back _ hw' := exists_of_rearranged_lasts v hw'

end Value

namespace Writer

section Data

variable {α : Type} [Datum α] {schema : Schema} {d d' : α} {v : Value}

/-- A datum is resolved by the last fields of each name, and checked by the first. -/
theorem resolve_firsts (hv : Datum.toValue d = .ok v) :
    resolve schema d = resolveHeld (Datum.arrangement d) schema v.lasts v.firsts := by
  have hlasts : resolveValue schema v.lasts = resolveValue schema v :=
    resolveValue_of_fit (fun fallback => Value.fit_lasts fallback v) schema
  rw [resolve_eq_resolveHeld hv, resolveHeld, resolveHeld, hlasts]
  simp only [Value.checkNarrowing_firsts]

/-- Where one value passes the check and not another, a long of that other is reported. -/
theorem resolveHeld_cases (order : Arrangement) (schema : Schema) (given held held' : Value) :
    resolveHeld order schema given held = resolveHeld order schema given held' ∨
      (∃ n m, resolveHeld order schema given held = .error (.error (.narrowed n)) ∧
        resolveHeld order schema given held' = .error (.error (.narrowed m))) ∨
      (∃ r n, resolveHeld order schema given held = .ok r ∧
        resolveHeld order schema given held' = .error (.error (.narrowed n))) ∨
      ∃ r n, resolveHeld order schema given held = .error (.error (.narrowed n)) ∧
        resolveHeld order schema given held' = .ok r := by
  unfold resolveHeld
  cases resolveValue schema given with
  | error stop => exact .inl rfl
  | ok r =>
    simp only [bind, Except.bind]
    cases held.checkNarrowing (order.arrange r) with
    | ok _ =>
      cases held'.checkNarrowing (order.arrange r) with
      | ok _ => exact .inl rfl
      | error n => exact .inr (.inr (.inl ⟨_, n, rfl, rfl⟩))
    | error n =>
      cases held'.checkNarrowing (order.arrange r) with
      | ok _ => exact .inr (.inr (.inr ⟨_, n, rfl, rfl⟩))
      | error m => exact .inr (.inl ⟨n, m, rfl, rfl⟩)

theorem encodeAlone_of_narrowed {w : Writer} {n : Int64} (hw : Ready schema w)
    (h : resolve schema d = .error (.error (.narrowed n))) :
    encodeAlone schema d = .error (.error (.encoding (.narrowed n))) := by
  rw [encodeAlone_of_ready hw, direct, h]
  rfl

/-- The first datum is encoded as the second is, or both are refused, with two exceptions: the check
lets pass what it reports of the second one, or reports what it has nothing to say of there. -/
def AlikeButForCheck (schema : Schema) (d d' : α) : Prop :=
  Outcome.Alike Eq (encodeAlone schema d) (encodeAlone schema d') ∨
    (∃ r n, resolve schema d = .ok r ∧
      encodeAlone schema d' = .error (.error (.encoding (.narrowed n)))) ∨
    ∃ r n, encodeAlone schema d = .error (.error (.encoding (.narrowed n))) ∧
      resolve schema d' = .ok r

/-- Two data that are resolved alike, of which the check looks at two values. -/
theorem alikeButForCheck_of_held {order : Arrangement} {given held held' : Value}
    (hd : resolve schema d = resolveHeld order schema given held)
    (hd' : resolve schema d' = resolveHeld order schema given held') :
    AlikeButForCheck schema d d' := by
  cases hcreate : create schema with
  | error stop =>
    left
    rw [encodeAlone, encodeAlone, hcreate]
    exact .stopped _
  | ok w =>
    have hw := ready_of_create hcreate
    rcases resolveHeld_cases order schema given held held' with
      heq | ⟨n, m, hn, hm⟩ | ⟨r, n, hr, hn⟩ | ⟨r, n, hn, hr⟩
    · exact .inl (.of_eq (encodeAlone_of_resolve (by rw [hd, hd', heq])))
    · left
      rw [encodeAlone_of_narrowed hw (hd.trans hn), encodeAlone_of_narrowed hw (hd'.trans hm)]
      exact .error _ _
    · exact .inr (.inl ⟨r, n, hd.trans hr, encodeAlone_of_narrowed hw (hd'.trans hn)⟩)
    · exact .inr (.inr ⟨r, n, encodeAlone_of_narrowed hw (hd.trans hn), hd'.trans hr⟩)

end Data

/-- A datum and its last fields, in orders that go together. -/
theorem encodeAlone_lasts_matching (schema : Schema) {d : Typed} {v : Value}
    (hv : Datum.toValue d = .ok v) :
    Arrangement.Matching fun given given' => ∀ resolved,
      let first : Arranged Typed := ⟨d, given, resolved⟩
      let last : Arranged Typed := ⟨d.lasts, given', resolved⟩
      let made := given.arrange v
      given'.arrange v.lasts = made.lasts ∧
        resolve schema first = resolveHeld resolved schema made.lasts made.firsts ∧
        resolve schema last = resolveHeld resolved schema made.lasts made.lasts ∧
        AlikeButForCheck schema first last := by
  refine (Value.paired_lasts v).matching ?_
  intro given given' hgiven resolved first last made
  have hlasts : Datum.toValue d.lasts = .ok v.lasts := Typed.toValue_lasts d hv
  have hfirst : resolve schema first = resolveHeld resolved schema made.lasts made.firsts :=
    resolve_firsts (by rw [Arranged.toValue_eq, hv]; rfl)
  have hlast : resolve schema last = resolveHeld resolved schema made.lasts made.lasts :=
    resolve_eq_resolveHeld (by rw [Arranged.toValue_eq, hlasts, ← hgiven]; rfl)
  exact ⟨hgiven, hfirst, hlast, alikeButForCheck_of_held hfirst hlast⟩

/-- A datum that stands for no value is refused. Any other is resolved to what its last fields
resolve to, and refused for a long of its first fields that does not fit that. In orders that go
together it is encoded as its last fields are, or both are refused, with two exceptions: the check
passes over a long of a last field, or it reports one of a first field that was left out. In any
other order of the last fields the same comes of them but for that order, and under a schema without
maps the order does not count. -/
theorem encodeAlone_lasts (schema : Schema) (d : Typed) :
    (∃ e, Datum.toValue d = .error e ∧ ∀ given resolved,
      resolve schema (Arranged.mk d given resolved) = .error (.error (.datum e))) ∨
    ∃ v, Datum.toValue d = .ok v ∧ Datum.toValue d.lasts = .ok v.lasts ∧
      (Arrangement.Matching fun given given' => ∀ resolved,
        let first : Arranged Typed := ⟨d, given, resolved⟩
        let last : Arranged Typed := ⟨d.lasts, given', resolved⟩
        let made := given.arrange v
        given'.arrange v.lasts = made.lasts ∧
          resolve schema first = resolveHeld resolved schema made.lasts made.firsts ∧
          resolve schema last = resolveHeld resolved schema made.lasts made.lasts ∧
          AlikeButForCheck schema first last) ∧
      ∀ first last : Arranged Typed, first.datum = d → last.datum = d.lasts →
        (∃ last' : Arranged Typed, last'.datum = d.lasts ∧ AlikeButForCheck schema first last' ∧
          UpToOrder schema (encodeAlone schema last') (encodeAlone schema last)) ∧
        (schema.isMapless → AlikeButForCheck schema first last) := by
  cases hv : Datum.toValue d with
  | error e =>
    refine .inl ⟨e, rfl, fun given resolved => ?_⟩
    rw [resolve, Arranged.toValue_eq, hv]
    rfl
  | ok v =>
    have hmatching := encodeAlone_lasts_matching schema hv
    refine .inr ⟨v, rfl, Typed.toValue_lasts d hv, hmatching, ?_⟩
    rintro ⟨e, given, resolved⟩ last hfirst hlast
    obtain rfl : d = e := hfirst.symm
    obtain ⟨given', h⟩ := hmatching.forth given
    obtain ⟨-, -, -, halike⟩ := h resolved
    refine ⟨⟨_, rfl, halike, encodeAlone_upToOrder hlast⟩, fun hs => ?_⟩
    rw [AlikeButForCheck, encodeAlone_mapless hs last, resolve_mapless hs last, hlast]
    rwa [AlikeButForCheck, encodeAlone_mapless hs ⟨d.lasts, given', resolved⟩,
      resolve_mapless hs ⟨d.lasts, given', resolved⟩] at halike

def countSchema : Schema := .record ⟨none, "Count"⟩ [⟨"n", [], none, .int⟩]

/-- A structure that gives the field of `countSchema` twice. -/
def countTwice (first last : Int) : Typed :=
  .struct [("n", .int .int64 first), ("n", .int .int64 last)]

/-- A long that does not fit an int is cut down and written if the field was given before with what
is left of it, and one that nothing is made of is a reason to refuse. -/
theorem encodeAlone_first_field :
    (countTwice 5 4294967301).lasts = .struct [("n", .int .int64 4294967301)] ∧
      encodeAlone countSchema (countTwice 5 4294967301) = .ok [10] ∧
      encodeAlone countSchema (countTwice 5 4294967301).lasts =
        .error (.error (.encoding (.narrowed 4294967301))) ∧
      encodeAlone countSchema (countTwice 4294967301 7) =
        .error (.error (.encoding (.narrowed 4294967301))) ∧
      encodeAlone countSchema (countTwice 4294967301 7).lasts = .ok [14] := by
  have hw : Ready countSchema _ := ready_of_create rfl
  simp only [encodeAlone_of_ready hw]
  exact ⟨rfl, by with_unfolding_all rfl, rfl, rfl, by with_unfolding_all rfl⟩

end Writer
end RecordTape
