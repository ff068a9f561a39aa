import RecordTape.Proofs.Value.FaresAlike
import RecordTape.Proofs.Value.Paired
import RecordTape.Proofs.Writer.AnyOrder
import RecordTape.Proofs.Writer.Mapless
import RecordTape.Proofs.Writer.RangeCheck
/-!
# Members that no record asks for

A record asks an object for its fields by name, and the check for narrowed longs asks for the fields
of the record. So a member under another name can be put into the object, altered or taken out, and
nothing changes (`encode_altered`). The object may be held against several records on the way,
because the branches of unions are tried until one is met; the name must be a field of none of these
(`encode_eitherSchema`). A map asks for all members, so the object must not be held against one.

The two objects hold the same maps elsewhere, so that an order of the one goes with an order of the
other (`Json.Altered.paired`), and in these two orders they are encoded to the same bytes.
-/

namespace RecordTape

namespace Json

/-! ## Integers that are longs -/

mutual

/-- No integer is `2^63` or more. -/
def isSized : Json → Bool
  | .int n => n < int64Bound
  | .array items => areSized items
  | .object members => membersSized members
  | _ => true

def areSized : List Json → Bool
  | [] => true
  | j :: js => isSized j && areSized js

def membersSized : List (String × Json) → Bool
  | [] => true
  | (_, j) :: rest => isSized j && membersSized rest

end

theorem areSized_append (xs ys : List Json) :
    areSized (xs ++ ys) = (areSized xs && areSized ys) := by
  induction xs with
  | nil => rfl
  | cons j rest ih => rw [List.cons_append, areSized, areSized, ih, Bool.and_assoc]

theorem membersSized_append (xs ys : List (String × Json)) :
    membersSized (xs ++ ys) = (membersSized xs && membersSized ys) := by
  induction xs with
  | nil => rfl
  | cons p rest ih =>
    obtain ⟨k, j⟩ := p
    rw [List.cons_append, membersSized, membersSized, ih, Bool.and_assoc]

mutual

/-- A JSON value stands for a value unless some integer is too large. -/
theorem toValue_eq (j : Json) :
    j.toValue = if j.isSized then .ok (Value.ofJson j) else .error .unsignedTooLarge := by
  cases j with
  | int n => by_cases hn : n < int64Bound <;> simp [toValue, isSized, Value.ofJson, hn]
  | array items =>
    rw [toValue, itemsToValues_eq items, isSized]
    cases areSized items <;> rfl
  | object members =>
    rw [toValue, membersToEntries_eq members, isSized]
    cases membersSized members <;> rfl
  | _ => rfl

theorem itemsToValues_eq (items : List Json) :
    itemsToValues items =
      if areSized items then .ok (Value.ofItems items) else .error .unsignedTooLarge := by
  cases items with
  | nil => rfl
  | cons j rest =>
    rw [itemsToValues, toValue_eq j, itemsToValues_eq rest, areSized]
    cases j.isSized <;> cases areSized rest <;> rfl

theorem membersToEntries_eq (members : List (String × Json)) :
    membersToEntries members =
      if membersSized members then .ok (Value.ofMembers members) else .error .unsignedTooLarge := by
  cases members with
  | nil => rfl
  | cons p rest =>
    obtain ⟨k, j⟩ := p
    rw [membersToEntries, toValue_eq j, membersToEntries_eq rest, membersSized]
    cases j.isSized <;> cases membersSized rest <;> rfl

end

/-! ## One member altered -/

/-- A member of the key, or none. -/
def atKey (key : String) (one : Option Json) : List (String × Json) := one.toList.map (key, ·)

/-- The second value is the first one but for the member of a key, in the object at the end of the
path: the member is put in, taken out or has another value. -/
inductive Altered (key : String) : List Step → Json → Json → Prop
  | here {before after : List (String × Json)} {old new : Option Json} :
      (∀ j ∈ old, j.isSized) → (∀ j ∈ new, j.isSized) →
      Altered key [] (.object (before ++ (atKey key old ++ after)))
        (.object (before ++ (atKey key new ++ after)))
  | item {before after : List Json} {path : List Step} {j j' : Json} : Altered key path j j' →
      Altered key (.item before.length :: path) (.array (before ++ j :: after))
        (.array (before ++ j' :: after))
  | member {before after : List (String × Json)} {name : String} {path : List Step} {j j' : Json} :
      Altered key path j j' →
      Altered key (.member name :: path) (.object (before ++ (name, j) :: after))
        (.object (before ++ (name, j') :: after))

namespace Altered

variable {key : String} {path : List Step} {j j' : Json}

theorem isSized_eq (h : Altered key path j j') : j'.isSized = j.isSized := by
  have hone {one : Option Json} (hsized : ∀ j ∈ one, j.isSized) :
      membersSized (atKey key one) = true := by
    cases one with
    | none => rfl
    | some j => simp [atKey, membersSized, hsized j rfl]
  induction h with
  | here hold hnew => simp only [isSized, membersSized_append, hone hold, hone hnew]
  | item _ ih => simp only [isSized, areSized_append, areSized, ih]
  | member _ ih => simp only [isSized, membersSized_append, membersSized, ih]

/-- Putting a member where it belongs in the order of keys alters the object at its key. -/
theorem insertMember {value : Json} {members : List (String × Json)}
    (hmembers : membersSized members) (hvalue : value.isSized) :
    Altered key [] (.object members) (.object (insertMember key value members)) := by
  have hsplit : ∃ (before after : List (String × Json)) (old : Option Json),
      members = before ++ (atKey key old ++ after) ∧
        Json.insertMember key value members = before ++ (atKey key (some value) ++ after) := by
    clear hmembers
    induction members with
    | nil => exact ⟨[], [], none, rfl, rfl⟩
    | cons p rest ih =>
      obtain ⟨k, v⟩ := p
      rw [Json.insertMember]
      split
      · exact ⟨[], (k, v) :: rest, none, rfl, rfl⟩
      · split
        · rename_i heq
          subst heq
          exact ⟨[], rest, some v, rfl, rfl⟩
        · obtain ⟨before, after, old, hold, hnew⟩ := ih
          exact ⟨(k, v) :: before, after, old, by rw [hold]; rfl, by rw [hnew]; rfl⟩
  obtain ⟨before, after, old, rfl, hnew⟩ := hsplit
  rw [hnew]
  refine .here ?_ (by rintro j ⟨⟩; exact hvalue)
  rintro j ⟨⟩
  simp only [membersSized_append, atKey, Option.toList_some, List.map_cons, List.map_nil,
    membersSized, Bool.and_eq_true] at hmembers
  exact hmembers.2.1.1

end Altered

end Json

/-! ## Orders of the two values -/

namespace Value

section Key

variable {key : String} {before mid mid' after : List (String × Value)}
  (hmid : ∀ p ∈ mid, p.1 = key) (hmid' : ∀ p ∈ mid', p.1 = key)
include hmid hmid'

/-- Two maps that differ in entries of the key. -/
theorem lookup_of_key {name : String} (hname : name ≠ key) :
    (before ++ (mid' ++ after)).lookup name = (before ++ (mid ++ after)).lookup name := by
  have hnone {ps : List (String × Value)} (hps : ∀ p ∈ ps, p.1 = key) : ps.lookup name = none :=
    List.lookup_eq_none_iff.mpr fun p hp => by rw [hps p hp]; exact bne_iff_ne.mpr hname
  rw [List.lookup_append, List.lookup_append, List.lookup_append, List.lookup_append, hnone hmid,
    hnone hmid']

theorem mirrored_of_key :
    Mirrored (Altered key []) (.map (before ++ (mid ++ after)))
      (.map (before ++ (mid' ++ after))) := by
  intro w hw
  obtain ⟨fs, gs, rfl, hfs, horder⟩ := hw.exists_entries
  obtain ⟨before', rest, hbefore, hrest, rfl⟩ := exists_append_of_forall₂ hfs
  obtain ⟨moved, after', hmoved, hafter, rfl⟩ := exists_append_of_forall₂ hrest
  have hkey : ∀ p ∈ moved, p.1 = key := fun q hq => by
    obtain ⟨p, hp, hpq, -⟩ := exists_of_mem_right hmoved hq
    exact hpq ▸ hmid p hp
  have hsame : EntriesRelated Rearranged mid' mid' :=
    List.forall₂_same.mpr fun p _ => ⟨rfl, .refl p.2⟩
  refine ⟨.map (before' ++ (mid' ++ after')),
    .ofEntries (List.rel_append hbefore (List.rel_append hsame hafter)) (.refl _),
    gs, _, rfl, rfl, fun name hname => ?_⟩
  rw [← horder.lookup name]
  exact lookup_of_key hkey hmid' hname

/-- Where only the entries of a key differ, an order of one map goes with an order of the other. -/
theorem paired_of_key :
    Paired (Altered key []) (.map (before ++ (mid ++ after)))
      (.map (before ++ (mid' ++ after))) where
  listed := ⟨_, _, rfl, rfl, fun _ hname => lookup_of_key hmid hmid' hname⟩
  forth := mirrored_of_key hmid hmid'
  back w' hw' := by
    obtain ⟨w, hw, es', es, rfl, rfl, hlookup⟩ := mirrored_of_key hmid' hmid w' hw'
    exact ⟨.map es, hw, es, es', rfl, rfl, fun name hname => (hlookup name hname).symm⟩

end Key

end Value

namespace Json

/-- An order of a JSON value goes with an order of what it is altered to. -/
theorem Altered.paired {key : String} {path : List Step} {j j' : Json} (h : Altered key path j j')
    (hj : j.isProper) : Value.Paired (Value.Altered key path) (.ofJson j) (.ofJson j') := by
  induction h with
  | @here before after old new _ _ =>
    have hone (one : Option Json) : ∀ p ∈ Value.ofMembers (atKey key one), p.1 = key := by
      cases one with
      | none => rintro p ⟨⟩
      | some j => rintro p (_ | ⟨_, ⟨⟩⟩); rfl
    have hmembers (one : Option Json) :
        Value.ofJson (.object (before ++ (atKey key one ++ after))) =
          .map (Value.ofMembers before ++ (Value.ofMembers (atKey key one) ++
            Value.ofMembers after)) := by
      simp only [Value.ofJson, Value.ofMembers_eq_map, List.map_append]
    rw [hmembers, hmembers]
    exact Value.paired_of_key (hone old) (hone new)
  | @item before after path j j' _ ih =>
    have hjs := areProper_iff.mp hj j (List.mem_append_right _ List.mem_cons_self)
    have hitems (j : Json) : Value.ofJson (.array (before ++ j :: after)) =
        .array (before.map Value.ofJson ++ Value.ofJson j :: after.map Value.ofJson) := by
      rw [Value.ofJson, Value.ofItems_eq_map, List.map_append, List.map_cons]
    rw [hitems, hitems]
    refine (ih hjs).item _ _ fun before' u u' after' hlen hu => ?_
    exact ⟨before', u, u', after', hlen.trans (List.length_map _), rfl, rfl, hu⟩
  | @member before after name path j j' _ ih =>
    simp only [isProper, Bool.and_eq_true, decide_eq_true_eq] at hj
    have hjs := membersProper_iff.mp hj.2 (name, j) (List.mem_append_right _ List.mem_cons_self)
    rw [Value.ofJson, Value.ofJson, Value.ofMembers_eq_map, Value.ofMembers_eq_map]
    have hnodup : (((before ++ (name, j) :: after).map fun p => (p.1, Value.ofJson p.2)).map
        (·.1)).Nodup := by
      rw [List.map_map]
      exact hj.1
    have hentries : List.Forall₂ (fun p p' => p.1 = p'.1 ∧ Value.Paired
        (fun u u' => u = u' ∨ p.1 = name ∧ Value.Altered key path u u') p.2 p'.2)
        ((before ++ (name, j) :: after).map fun p => (p.1, Value.ofJson p.2))
        ((before ++ (name, j') :: after).map fun p => (p.1, Value.ofJson p.2)) := by
      have hsame (members : List (String × Value)) : List.Forall₂ (fun p p' => p.1 = p'.1 ∧
          Value.Paired (fun u u' => u = u' ∨ p.1 = name ∧ Value.Altered key path u u') p.2 p'.2)
          members members :=
        List.forall₂_same.mpr fun p _ => ⟨rfl, .refl (fun _ => .inl rfl) p.2⟩
      rw [List.map_append, List.map_append, List.map_cons, List.map_cons]
      exact List.rel_append (hsame _)
        (.cons ⟨rfl, (ih hjs).imp fun _ _ hu => .inr ⟨rfl, hu⟩⟩ (hsame _))
    exact .map (S := fun k u u' => u = u' ∨ k = name ∧ Value.Altered key path u u') hentries
      fun gs gs' hnames hrelated => ⟨gs, gs', rfl, rfl, hnames.nodup_iff.mpr hnodup, hrelated⟩

end Json

namespace Writer

variable {schema : Schema} {w : Writer} {key : String} {path : List Step} {j j' : Json}

/-- The key is overlooked wherever the part at the end of the path stands while the whole value is
resolved. -/
def Overlooks (schema : Schema) (key : String) (path : List Step) (v : Value) : Prop :=
  ∀ names, schema.names = .ok names →
    ∀ q ∈ v.facedAt (Fallback.ofDepth (Value.defaultDepth names schema)) path
      ⟨names, schema.ns, schema⟩, q.schema.overlooks key

/-- The check may be skipped for one of the two values and run for the other: it would find nothing
where it is skipped. -/
theorem resolve_of_altered {α : Type} [Datum α] {d d' : α} {v v' : Value} {names : Names}
    (hnames : schema.names = .ok names) (hv : Datum.toValue d = .ok v)
    (hv' : Datum.toValue d' = .ok v') (horder : Datum.arrangement d' = Datum.arrangement d)
    (h : v.Altered key path v') (hkey : Overlooks schema key path v) :
    resolve schema d' = resolve schema d := by
  have hfares := h.faresAlike (hkey names hnames)
  have hvalue : resolveValue schema v' = resolveValue schema v := by
    rw [resolveValue, resolveValue, hnames]
    exact congrArg (Outcome.mapError EncodingFailure.mismatch) hfares.fit
  cases hr : resolveValue schema v with
  | error stop => rw [resolve_of_error hv hr, resolve_of_error hv' (hvalue.trans hr)]
  | ok r =>
    have hfit : v.fitAt (Fallback.ofDepth (Value.defaultDepth names schema))
        ⟨names, schema.ns, schema⟩ = .ok r := by
      rw [resolveValue, hnames] at hr
      exact Outcome.mapError_eq_ok.mp hr
    have hcheck := hfares.check r hfit ((Datum.arrangement d).rearranges r)
    rw [resolve_of_made hv hr, resolve_of_made hv' (hvalue.trans hr), horder, hcheck]

/-- A JSON value and what it is altered to, in orders that go together. -/
theorem encode_altered_matching (hw : Ready schema w) (hj : j.isProper)
    (h : j.Altered key path j') :
    Arrangement.Matching fun given given' =>
      Overlooks schema key path (given.arrange (.ofJson j)) → ∀ resolved,
        w.encode (Arranged.mk j' given' resolved) = w.encode (Arranged.mk j given resolved) := by
  obtain ⟨-, names, -, hnames⟩ := bound_of_ready hw
  have htoValue (x : Json) : Datum.toValue x =
      if x.isSized then .ok (.ofJson x) else .error .unsignedTooLarge := Json.toValue_eq x
  refine (h.paired hj).matching fun given given' haltered hkey resolved => encode_of_resolve hw ?_
  cases hsized : j.isSized with
  | false =>
    rw [resolve, resolve, Arranged.toValue_eq, Arranged.toValue_eq, htoValue, htoValue,
      h.isSized_eq,
      hsized]
    rfl
  | true =>
    refine resolve_of_altered hnames ?_ ?_ rfl haltered hkey
    · rw [Arranged.toValue_eq, htoValue, hsized]
      rfl
    · rw [Arranged.toValue_eq, htoValue, h.isSized_eq, hsized]
      rfl

/-- A member of an object makes no difference to what is encoded, whether it is there and whatever
its value is, if its key is overlooked by every schema that the object is held against. The two JSON
values come to the same in orders that go together, and in any orders to the same but for these, or
to the same outright under a schema without maps. -/
theorem encode_altered (hw : Ready schema w) (hj : j.isProper) (h : j.Altered key path j') :
    (Arrangement.Matching fun given given' =>
      Overlooks schema key path (given.arrange (.ofJson j)) → ∀ resolved,
        w.encode (Arranged.mk j' given' resolved) = w.encode (Arranged.mk j given resolved)) ∧
    ∀ d d' : Arranged Json, d.datum = j → d'.datum = j' →
      Overlooks schema key path (d.given.arrange (.ofJson j)) →
      UpToOrder schema (w.encode d).1 (w.encode d').1 ∧
        (schema.isMapless → (w.encode d').1 = (w.encode d).1) := by
  have hmatching := encode_altered_matching hw hj h
  refine ⟨hmatching, ?_⟩
  rintro ⟨_, given, resolved⟩ d' rfl hd' hkey
  obtain ⟨given', heq⟩ := hmatching.forth given
  rw [← heq hkey resolved]
  refine ⟨encode_upToOrder hw hd', fun hs => ?_⟩
  rw [encode_mapless hw hs d', hd', encode_mapless hw hs ⟨j', given', resolved⟩]

/-- An order of gifts and items, where an item may hold another one. -/
def orderSchema : Schema :=
  .record ⟨none, "Order"⟩
    [⟨"lines", [], none, .array (.union [.null,
      .record ⟨none, "Gift"⟩ [⟨"note", [], none, .string⟩],
      .record ⟨none, "Item"⟩
        [⟨"count", [], none, .int⟩, ⟨"next", [], none, .union [.null, .ref ⟨none, "Item"⟩]⟩]])⟩]

/-- An order of one item with another one inside, which has these members. -/
def order (members : List (String × Json)) : Json :=
  .object [("lines", .array [.null, .object [("count", .int 1), ("next", .object members)]])]

def itemMembers : List (String × Json) := [("count", .int 2), ("next", .null)]

/-- The inner item is held against items only, so a note of any kind makes no gift of it. -/
theorem encode_altered_order :
    let altered := order (Json.insertMember "note" (.array [.int 4294967301]) itemMembers)
    ∃ w, forSchema orderSchema = .ok w ∧
      (w.encode (Arranged.mk altered .backwards .listed)).1 =
        (w.encode (Arranged.mk (order itemMembers) .listed .listed)).1 ∧
      (w.encode (Arranged.mk (order itemMembers) .listed .listed)).1 =
        .ok [4, 0, 4, 2, 2, 4, 0, 0] := by
  intro altered
  obtain ⟨w, hw⟩ : ∃ w, forSchema orderSchema = .ok w := ⟨_, rfl⟩
  have hready := ready_of_create (create_of_forSchema hw)
  have hnote : Json.Altered "note" [] (.object itemMembers)
      (.object (Json.insertMember "note" (.array [.int 4294967301]) itemMembers)) :=
    .insertMember rfl rfl
  have hitem := @Json.Altered.member "note" [("count", .int 1)] [] "next" _ _ _ hnote
  have hlines := @Json.Altered.item "note" [.null] [] _ _ _ hitem
  have horder := @Json.Altered.member "note" [] [] "lines" _ _ _ hlines
  have hkey : Overlooks orderSchema "note" [.member "lines", .item 1, .member "next"]
      (.ofJson (order itemMembers)) := by
    rintro names ⟨⟩
    decide
  obtain ⟨-, hsame⟩ := encode_altered hready (by decide) horder
  refine ⟨w, hw, (hsame ⟨order itemMembers, .listed, .listed⟩ ⟨altered, .backwards, .listed⟩ rfl rfl
    hkey).2 (by decide), ?_⟩
  rw [encode_ready hready]
  with_unfolding_all rfl

def oneSchema (name field : String) : Schema :=
  .record ⟨none, name⟩ [⟨field, [], none, .int⟩]

/-- A union of two records. -/
def eitherSchema : Schema := .union [oneSchema "A" "a", oneSchema "B" "b"]

/-- An object that became the second record becomes the first one if it is given a member that is no
field of the second one. -/
theorem encode_eitherSchema :
    ∃ w, forSchema eitherSchema = .ok w ∧
      resolve eitherSchema (Json.object [("b", .int 1)]) =
        .ok (.union 1 (.record [("b", .int 1)])) ∧
      (oneSchema "B" "b").overlooks "a" ∧
      Json.Altered "a" [] (.object [("b", .int 1)]) (.object [("a", .int 1), ("b", .int 1)]) ∧
      (w.encode (Json.object [("b", .int 1)])).1 = .ok [2, 2] ∧
      (w.encode (Json.object [("a", .int 1), ("b", .int 1)])).1 = .ok [0, 2] := by
  obtain ⟨w, hw⟩ : ∃ w, forSchema eitherSchema = .ok w := ⟨_, rfl⟩
  have hready := ready_of_create (create_of_forSchema hw)
  refine ⟨w, hw, rfl, by decide, .insertMember rfl rfl, ?_, ?_⟩
  · rw [encode_ready hready]
    with_unfolding_all rfl
  · rw [encode_ready hready]
    with_unfolding_all rfl

end Writer
end RecordTape
