import RecordTape.Datum.Typed
import RecordTape.Proofs.Value.Paired
import RecordTape.Proofs.Value.Transparent
import RecordTape.Proofs.Writer.AnyOrder
import RecordTape.Proofs.Writer.Mapless
import RecordTape.Proofs.Writer.RangeCheck
/-!
# Options in typed data

A part of a typed datum that is put into an option is encoded as it is without, or refused as it is
without, wherever the slot for it is a union (`encodeAlone_some`). In a slot that is none the check
passes over the option: a long that is refused by itself is cut down and written
(`encodeAlone_some_narrows`).
-/

namespace RecordTape

namespace Typed

/-- The datum is an option, or a new type around one. -/
def isOption : Typed → Bool
  | none => true
  | some _ => true
  | newtype d => isOption d
  | _ => false

/-- A place inside a datum, reached through sequences, map values and fields. -/
inductive Place where
  | here
  | newtype (p : Place)
  | item (before : List Typed) (p : Place) (after : List Typed)
  | component (before : List Typed) (p : Place) (after : List Typed)
  | entry (before : List (Typed × Typed)) (key : Typed) (p : Place)
    (after : List (Typed × Typed))
  | field (before : List (String × Typed)) (name : String) (p : Place)
    (after : List (String × Typed))

namespace Place

/-- The datum with a part at the place. -/
def fill : Place → Typed → Typed
  | here, x => x
  | newtype p, x => .newtype (p.fill x)
  | item before p after, x => .seq (before ++ p.fill x :: after)
  | component before p after, x => .tuple (before ++ p.fill x :: after)
  | entry before key p after, x => .map (before ++ (key, p.fill x) :: after)
  | field before name p after, x => .struct (before ++ (name, p.fill x) :: after)

/-- The text that a key stands for. -/
def keyText (key : Typed) : String :=
  match toValue key with
  | .ok (.string text) => text
  | _ => ""

/-- The path to the place in the value of the datum. -/
def path : Place → List Step
  | here => []
  | newtype p => p.path
  | item before p _ => .item before.length :: p.path
  | component before p _ => .item before.length :: p.path
  | entry _ key p _ => .member (keyText key) :: p.path
  | field _ name p _ => .member name :: p.path

end Place

/-! ## The values of the datum with and without the option -/

/-- Two readings fail alike, or give values of which the second has an option more. -/
inductive Followed {α : Type} (R : α → α → Prop) :
    Except DatumError α → Except DatumError α → Prop
  | error (e : DatumError) : Followed R (.error e) (.error e)
  | ok {a b : α} : R a b → Followed R (.ok a) (.ok b)

theorem Followed.bind {α β : Type} {R : α → α → Prop} {S : β → β → Prop}
    {x y : Except DatumError α} {f g : α → Except DatumError β} (h : Followed R x y)
    (hf : ∀ a b, R a b → Followed S (f a) (g b)) : Followed S (x >>= f) (y >>= g) := by
  cases h with
  | error e => exact .error e
  | ok hab => exact hf _ _ hab

theorem Followed.imp {α : Type} {R S : α → α → Prop} {x y : Except DatumError α}
    (h : Followed R x y) (hRS : ∀ a b, R a b → S a b) : Followed S x y := by
  cases h with
  | error e => exact .error e
  | ok hab => exact .ok (hRS _ _ hab)

theorem Followed.same {α : Type} (x : Except DatumError α) : Followed Eq x x := by
  cases x with
  | error e => exact .error e
  | ok a => exact .ok rfl

theorem isUnion_of_intToValue {width : IntWidth} {n : Int} {v : Value}
    (h : intToValue width n = .ok v) : v.isUnion = false := by
  unfold intToValue at h
  split at h
  · cases h; rfl
  · split at h
    · cases h; rfl
    · cases h
  · cases h; split <;> rfl
  · cases h; rfl

/-- What is no option does not become a union. -/
theorem isUnion_of_toValue {x : Typed} {v : Value} (hx : x.isOption = false)
    (h : toValue x = .ok v) : v.isUnion = false := by
  induction x using isOption.induct with
  | case1 | case2 => cases hx
  | case3 d ih => rw [toValue] at h; exact ih hx h
  | case4 x hnone hsome hnewtype =>
    cases x with
    | none => exact absurd rfl hnone
    | some d => exact absurd rfl (hsome d)
    | newtype d => exact absurd rfl (hnewtype d)
    | int width n => rw [toValue] at h; exact isUnion_of_intToValue h
    | seq | tuple | map | struct | newtypeVariant | tupleVariant | structVariant =>
      rw [toValue] at h
      obtain ⟨_, -, hv⟩ := Outcome.bind_eq_ok.mp h
      cases hv
      rfl
    | refuse => rw [toValue] at h; cases h
    | _ => rw [toValue] at h; cases h; rfl

end Typed

/-! ## Orders of the two values -/

theorem Rearranged.isUnion_eq {v w : Value} (h : Rearranged v w) : v.isUnion = w.isUnion := by
  cases h <;> rfl

namespace Value.Transparent

variable {path : List Step} {name : String} {entries entries' : List (String × Value)}

/-- An option goes around the value in whatever order it is listed. -/
theorem paired_here {v : Value} (hv : v.isUnion = false) (i : Nat) :
    Paired (Transparent []) v (.union i v) where
  listed := here hv i
  forth w hw := ⟨.union i w, .union i hw, here (hw.isUnion_eq ▸ hv) i⟩
  back w hw := by
    obtain ⟨u, rfl, hu⟩ := hw.exists_content
    exact ⟨u, hu, here (hu.isUnion_eq ▸ hv) i⟩

theorem paired_item {v v' : Value} (h : Paired (Transparent path) v v')
    (before after : List Value) :
    Paired (Transparent (.item before.length :: path)) (.array (before ++ v :: after))
      (.array (before ++ v' :: after)) :=
  h.item before after fun before' _ _ after' hlen hu => hlen ▸ hu.item before' after'

/-- Entries that go together one by one. -/
theorem paired_entries (h : EntriesBut (Paired (Transparent path)) name entries entries') :
    List.Forall₂ (fun p p' => p.1 = p'.1 ∧
      Paired (fun u u' => u = u' ∨ p.1 = name ∧ Transparent path u u') p.2 p'.2) entries entries' :=
  h.imp fun p p' ⟨hkey, hvalue⟩ => ⟨hkey, by
    rcases hvalue with heq | ⟨hname, hpair⟩
    · exact heq ▸ .refl (fun _ => .inl rfl) p.2
    · exact hpair.imp fun _ _ hu => .inr ⟨hname, hu⟩⟩

theorem paired_map (h : EntriesBut (Paired (Transparent path)) name entries entries') :
    Paired (Transparent (.member name :: path)) (.map entries) (.map entries') :=
  .map (S := fun key u u' => u = u' ∨ key = name ∧ Transparent path u u') (paired_entries h)
    fun _ _ _ => map

theorem paired_record (h : EntriesBut (Paired (Transparent path)) name entries entries') :
    Paired (Transparent (.member name :: path)) (.record entries) (.record entries') :=
  .record (S := fun key u u' => u = u' ∨ key = name ∧ Transparent path u u') (paired_entries h)
    fun _ _ => record

end Value.Transparent

namespace Typed

section Parts

variable {path : List Step} {d d' : Typed}

/-- Two readings of a datum whose values are the same but for an option at the path, in whatever
order they list their maps. -/
abbrev Follows (path : List Step) (d d' : Typed) : Prop :=
  Followed (Value.Paired (Value.Transparent path)) (toValue d) (toValue d')

theorem itemsToValues_followed (h : Follows path d d') (before after : List Typed) :
    Followed (fun vs vs' => Value.Paired (Value.Transparent (.item before.length :: path))
        (.array vs) (.array vs'))
      (itemsToValues (before ++ d :: after)) (itemsToValues (before ++ d' :: after)) := by
  suffices hsplit : Followed (fun vs vs' => ∃ front v v' back, front.length = before.length ∧
      vs = front ++ v :: back ∧ vs' = front ++ v' :: back ∧
      Value.Paired (Value.Transparent path) v v')
      (itemsToValues (before ++ d :: after)) (itemsToValues (before ++ d' :: after)) by
    refine hsplit.imp ?_
    rintro _ _ ⟨front, v, v', back, hlength, rfl, rfl, hv⟩
    rw [← hlength]
    exact Value.Transparent.paired_item hv front back
  induction before with
  | nil =>
    rw [List.nil_append, List.nil_append, itemsToValues, itemsToValues]
    refine h.bind fun v v' hv => ?_
    refine (Followed.same (itemsToValues after)).bind ?_
    rintro back _ rfl
    exact .ok ⟨[], v, v', back, rfl, rfl, rfl, hv⟩
  | cons first before ih =>
    rw [List.cons_append, List.cons_append, itemsToValues, itemsToValues]
    refine (Followed.same (toValue first)).bind ?_
    rintro u _ rfl
    refine ih.bind ?_
    rintro _ _ ⟨front, v, v', back, hlength, rfl, rfl, hv⟩
    exact .ok ⟨u :: front, v, v', back, congrArg (· + 1) hlength, rfl, rfl, hv⟩

theorem fieldsToValues_followed (h : Follows path d d') (before after : List (String × Typed))
    (name : String) :
    Followed (Value.EntriesBut (Value.Paired (Value.Transparent path)) name)
      (fieldsToValues (before ++ (name, d) :: after))
      (fieldsToValues (before ++ (name, d') :: after)) := by
  induction before with
  | nil =>
    rw [List.nil_append, List.nil_append, fieldsToValues, fieldsToValues]
    refine h.bind fun v v' hv => ?_
    refine (Followed.same (fieldsToValues after)).bind ?_
    rintro vs _ rfl
    exact .ok (.cons ⟨rfl, .inr ⟨rfl, hv⟩⟩ (Value.EntriesBut.refl vs))
  | cons first before ih =>
    rw [List.cons_append, List.cons_append, fieldsToValues, fieldsToValues]
    refine (Followed.same (toValue first.2)).bind ?_
    rintro u _ rfl
    exact ih.bind fun vs vs' hvs => .ok (.cons ⟨rfl, .inl rfl⟩ hvs)

/-- The text of a key is a text, or the reading stops at it. -/
theorem entriesToValues_cons (key d : Typed) (rest : List (Typed × Typed)) :
    entriesToValues ((key, d) :: rest) =
      (match toValue key with
        | .ok (.string text) => do return (text, ← toValue d) :: (← entriesToValues rest)
        | .ok _ => .error .keyNotText
        | .error e => .error e) := by
  rw [entriesToValues]
  rcases toValue key with e | v
  · rfl
  · cases v <;> rfl

theorem entriesToValues_followed (h : Follows path d d') (before after : List (Typed × Typed))
    (key : Typed) :
    Followed (Value.EntriesBut (Value.Paired (Value.Transparent path)) (Place.keyText key))
      (entriesToValues (before ++ (key, d) :: after))
      (entriesToValues (before ++ (key, d') :: after)) := by
  induction before with
  | nil =>
    rw [List.nil_append, List.nil_append, entriesToValues_cons, entriesToValues_cons]
    unfold Place.keyText
    rcases toValue key with e | v
    · exact .error e
    · cases v with
      | string text =>
        refine h.bind fun v v' hv => ?_
        refine (Followed.same (entriesToValues after)).bind ?_
        rintro vs _ rfl
        exact .ok (.cons ⟨rfl, .inr ⟨rfl, hv⟩⟩ (Value.EntriesBut.refl vs))
      | _ => exact .error .keyNotText
  | cons first before ih =>
    obtain ⟨k, u⟩ := first
    rw [List.cons_append, List.cons_append, entriesToValues_cons, entriesToValues_cons]
    rcases toValue k with e | v
    · exact .error e
    · cases v with
      | string text =>
        refine (Followed.same (toValue u)).bind ?_
        rintro u _ rfl
        exact ih.bind fun vs vs' hvs => .ok (.cons ⟨rfl, .inl rfl⟩ hvs)
      | _ => exact .error .keyNotText

/-- A part that is no option, and the option of it at the same place. -/
theorem follows_fill (p : Place) {x : Typed} (hx : x.isOption = false) :
    Follows p.path (p.fill x) (p.fill x.some) := by
  induction p with
  | here =>
    unfold Follows Place.fill Place.path
    rw [toValue]
    cases h : toValue x with
    | error e => exact .error e
    | ok v => exact .ok (Value.Transparent.paired_here (isUnion_of_toValue hx h) 1)
  | newtype p ih =>
    unfold Follows Place.fill Place.path
    rw [toValue, toValue]
    exact ih
  | item before p after ih | component before p after ih =>
    unfold Follows Place.fill Place.path
    rw [toValue, toValue]
    exact (itemsToValues_followed ih before after).bind fun vs vs' hvs => .ok hvs
  | entry before key p after ih =>
    unfold Follows Place.fill Place.path
    rw [toValue, toValue]
    refine (entriesToValues_followed ih before after key).bind fun vs vs' hvs => ?_
    obtain ⟨map, map', hmap, hmap', hentries⟩ := hvs.ofEntries
    rw [hmap, hmap']
    exact .ok (Value.Transparent.paired_map hentries)
  | field before name p after ih =>
    unfold Follows Place.fill Place.path
    rw [toValue, toValue]
    exact (fieldsToValues_followed ih before after name).bind fun vs vs' hvs =>
      .ok (Value.Transparent.paired_record hvs)

end Parts

end Typed

namespace Writer

open Typed (Place)

/-- Values that take the same forms are resolved alike. -/
theorem resolveValue_of_fit {v v' : Value} (h : ∀ fallback, v'.fit fallback = v.fit fallback)
    (schema : Schema) : resolveValue schema v' = resolveValue schema v := by
  unfold resolveValue Value.resolveWithin
  simp only [h]

section Data

variable {α : Type} [Datum α] {d d' : α}

/-- Two data of which the second has an option more, in orders that go together, are resolved
alike, unless there is a slot for the option that is no union. -/
theorem resolve_of_transparent (schema : Schema) {path : List Step} {v v' : Value}
    (hv : Datum.toValue d = .ok v) (hv' : Datum.toValue d' = .ok v')
    (horder : Datum.arrangement d' = Datum.arrangement d) (h : v.Transparent path v') :
    resolve schema d' = resolve schema d ∨
      (∃ n, resolve schema d = .error (.error (.narrowed n))) ∧
        ∃ r, resolveValue schema v = .ok r ∧
          ∃ slot ∈ ((Datum.arrangement d).arrange r).standingAt path, slot.isUnion = false := by
  have hvalue := resolveValue_of_fit h.fit schema
  cases hr : resolveValue schema v with
  | error stop =>
    left
    rw [resolve_of_error hv hr, resolve_of_error hv' (hvalue.trans hr)]
  | ok r =>
    rw [resolve_of_made hv hr, resolve_of_made hv' (hvalue.trans hr), horder]
    cases hcheck : v.checkNarrowing ((Datum.arrangement d).arrange r) with
    | ok _ => rw [h.loosened _ hcheck]; exact .inl rfl
    | error n =>
      by_cases hslots : ∀ slot ∈ ((Datum.arrangement d).arrange r).standingAt path, slot.isUnion
      · rw [h.checked _ hslots, hcheck]; exact .inl rfl
      · push Not at hslots
        obtain ⟨slot, hslot, hunion⟩ := hslots
        exact .inr ⟨⟨n, rfl⟩, r, rfl, slot, hslot, by simpa using hunion⟩

/-- The datum is refused because a long would be narrowed, and there is a slot at the path that is
no union. -/
def NarrowedAtPlainSlot (schema : Schema) (path : List Step) (d : α) : Prop :=
  (∃ n, encodeAlone schema d = .error (.error (.encoding (.narrowed n)))) ∧
    ∃ v r, Datum.toValue d = .ok v ∧ resolveValue schema v = .ok r ∧
      ∃ slot ∈ ((Datum.arrangement d).arrange r).standingAt path, slot.isUnion = false

theorem encodeAlone_of_transparent (schema : Schema) {path : List Step} {v v' : Value}
    (hv : Datum.toValue d = .ok v) (hv' : Datum.toValue d' = .ok v')
    (horder : Datum.arrangement d' = Datum.arrangement d) (h : v.Transparent path v') :
    encodeAlone schema d' = encodeAlone schema d ∨ NarrowedAtPlainSlot schema path d := by
  cases hcreate : create schema with
  | error stop =>
    left
    rw [encodeAlone, encodeAlone, hcreate]
    rfl
  | ok w =>
    rcases resolve_of_transparent schema hv hv' horder h with heq | ⟨⟨n, hn⟩, r, hr, hslot⟩
    · exact .inl (encodeAlone_of_resolve heq)
    · refine .inr ⟨⟨n, ?_⟩, v, r, hv, hr, hslot⟩
      rw [encodeAlone_of_ready (ready_of_create hcreate), direct, hn]
      rfl

end Data

/-- A part and the option of it, in orders that go together. -/
theorem encodeAlone_some_matching (schema : Schema) (p : Place) {x : Typed}
    (hx : x.isOption = false) :
    Arrangement.Matching fun given given' => ∀ resolved,
      let d : Arranged Typed := ⟨p.fill x, given, resolved⟩
      let d' : Arranged Typed := ⟨p.fill x.some, given', resolved⟩
      encodeAlone schema d' = encodeAlone schema d ∨ NarrowedAtPlainSlot schema p.path d := by
  have hfollows : Typed.Followed (Value.Paired (Value.Transparent p.path))
      (Datum.toValue (p.fill x)) (Datum.toValue (p.fill x.some)) := Typed.follows_fill p hx
  generalize hread : Datum.toValue (p.fill x) = read at hfollows
  generalize hread' : Datum.toValue (p.fill x.some) = read' at hfollows
  cases hfollows with
  | error e =>
    refine .of_forall fun given given' resolved => .inl (encodeAlone_of_resolve ?_)
    rw [resolve, resolve, Arranged.toValue_eq, Arranged.toValue_eq, hread, hread']
    rfl
  | @ok v v' h =>
    refine h.matching fun given given' htransparent resolved => ?_
    refine encodeAlone_of_transparent schema ?_ ?_ rfl htransparent
    · rw [Arranged.toValue_eq, hread]
      rfl
    · rw [Arranged.toValue_eq, hread']
      rfl

/-- A part that is put into an option, wherever it stands and unless it is an option itself, makes
no difference to what the datum is encoded to, with one exception. A datum that is refused because a
long would be narrowed may pass, and only if the part stands in a slot that is no union.

The two data come to the same in orders that go together. In any orders the bytes are the same but
for the order of maps, and the same outright under a schema without maps. -/
theorem encodeAlone_some (schema : Schema) (p : Place) {x : Typed} (hx : x.isOption = false) :
    (Arrangement.Matching fun given given' => ∀ resolved,
      let d : Arranged Typed := ⟨p.fill x, given, resolved⟩
      let d' : Arranged Typed := ⟨p.fill x.some, given', resolved⟩
      encodeAlone schema d' = encodeAlone schema d ∨ NarrowedAtPlainSlot schema p.path d) ∧
    ∀ d d' : Arranged Typed, d.datum = p.fill x → d'.datum = p.fill x.some →
      (UpToOrder schema (encodeAlone schema d) (encodeAlone schema d') ∧
          (schema.isMapless → encodeAlone schema d' = encodeAlone schema d)) ∨
        NarrowedAtPlainSlot schema p.path d := by
  have hmatching := encodeAlone_some_matching schema p hx
  refine ⟨hmatching, fun ⟨_, given, resolved⟩ d' hd hd' => ?_⟩
  cases hd
  obtain ⟨given', h⟩ := hmatching.forth given
  rcases h resolved with heq | hnarrowed
  · rw [← heq]
    refine .inl ⟨encodeAlone_upToOrder hd', fun hs => ?_⟩
    rw [encodeAlone_mapless hs d', hd', encodeAlone_mapless hs ⟨p.fill x.some, given', resolved⟩]
  · exact .inr hnarrowed

/-- A record of an int that may be missing, and of ints by name. -/
def spanSchema : Schema :=
  .record ⟨none, "Span"⟩
    [⟨"start", [], none, .union [.null, .int]⟩, ⟨"ends", [], none, .map .int⟩]

def spanStart : Place :=
  .field [] "start" .here
    [("ends", .map [(.string "a", .int .int32 1), (.string "b", .int .int32 2)])]

/-- Where a union stands an option makes no difference, other than the one that comes of the order
of a map. -/
theorem encodeAlone_some_span :
    let x : Typed := .int .int64 5
    let d : Arranged Typed := ⟨spanStart.fill x, .listed, .listed⟩
    let d' : Arranged Typed := ⟨spanStart.fill x.some, .backwards, .listed⟩
    x.isOption = false ∧
      UpToOrder spanSchema (encodeAlone spanSchema d) (encodeAlone spanSchema d') ∧
      encodeAlone spanSchema d = .ok [2, 10, 4, 2, 97, 2, 2, 98, 4, 0] ∧
      encodeAlone spanSchema d' = .ok [2, 10, 4, 2, 98, 4, 2, 97, 2, 0] := by
  intro x d d'
  have hw : Ready spanSchema _ := ready_of_create rfl
  have hd : encodeAlone spanSchema d = .ok [2, 10, 4, 2, 97, 2, 2, 98, 4, 0] := by
    rw [encodeAlone_of_ready hw]
    with_unfolding_all rfl
  have hd' : encodeAlone spanSchema d' = .ok [2, 10, 4, 2, 98, 4, 2, 97, 2, 0] := by
    rw [encodeAlone_of_ready hw]
    with_unfolding_all rfl
  refine ⟨rfl, ?_, hd, hd'⟩
  rcases (encodeAlone_some spanSchema spanStart (x := x) rfl).2 d d' rfl rfl with
    ⟨hsame, -⟩ | ⟨⟨n, hn⟩, -⟩
  · exact hsame
  · cases hd.symm.trans hn

/-- Where an int stands a long that does not fit is refused by itself, and cut down to an int if it
is in an option. -/
theorem encodeAlone_some_narrows :
    let x : Typed := .int .int64 4294967301
    encodeAlone .int x = .error (.error (.encoding (.narrowed 4294967301))) ∧
      encodeAlone .int x.some = .ok [10] := by
  have hw : Ready .int _ := ready_of_create rfl
  constructor
  · rw [encodeAlone_of_ready hw]
    rfl
  · rw [encodeAlone_of_ready hw]
    with_unfolding_all rfl

end Writer
end RecordTape
