import RecordTape.Datum.Typed
import RecordTape.Proofs.Value.Twins
import RecordTape.Proofs.Writer.RangeCheck
/-!
# Typed data and JSON values of one shape

Under a schema without unions and maps a typed datum and the JSON value of its shape have the same
direct encoding, or both have none (`encode_sameShape`), with one exception. An integer of a JSON
value is a long, and a date or time of day in 32 bits takes no long: where a typed datum has a form
with one of these in it, the JSON value is refused.
-/

namespace RecordTape

namespace Typed

/-- The JSON value has the shape of the typed datum: integers of 32 and of 64 bits as integers,
structures as objects with their fields in any order. -/
inductive SameShape : Typed → Json → Prop
  | bool (b : Bool) : SameShape (.bool b) (.bool b)
  | int32 {n : Int} : -int32Bound ≤ n → n < int32Bound → SameShape (.int .int32 n) (.int n)
  | int64 {n : Int} : -int64Bound ≤ n → n < int64Bound → SameShape (.int .int64 n) (.int n)
  | double (x : Binary64) : SameShape (.double x) (.double x)
  | string (s : String) : SameShape (.string s) (.string s)
  | seq {ps : List (Typed × Json)} : (∀ p ∈ ps, SameShape p.1 p.2) →
      SameShape (.seq (ps.map (·.1))) (.array (ps.map (·.2)))
  | struct {ps : List (String × Typed × Json)} {members : List (String × Json)} :
      (ps.map (·.1)).Nodup → (∀ p ∈ ps, SameShape p.2.1 p.2.2) →
      members.Perm (ps.map fun p => (p.1, p.2.2)) →
      SameShape (.struct (ps.map fun p => (p.1, p.2.1))) (.object members)

/-- The items of two sequences, pair by pair. -/
theorem exists_items {ps : List (Typed × Json)}
    (h : ∀ p ∈ ps, ∃ v w, p.1.toValue = .ok v ∧ p.2.toValue = .ok w ∧ Value.Twin v w) :
    ∃ qs : List (Value × Value), itemsToValues (ps.map (·.1)) = .ok (qs.map (·.1)) ∧
      Json.itemsToValues (ps.map (·.2)) = .ok (qs.map (·.2)) ∧ ∀ q ∈ qs, Value.Twin q.1 q.2 := by
  induction ps with
  | nil => exact ⟨[], rfl, rfl, by nofun⟩
  | cons p ps ih =>
    obtain ⟨v, w, hv, hw, htwin⟩ := h p List.mem_cons_self
    obtain ⟨qs, hvs, hws, htwins⟩ := ih fun p hp => h p (List.mem_cons_of_mem _ hp)
    refine ⟨(v, w) :: qs, ?_, ?_, List.forall_mem_cons.mpr ⟨htwin, htwins⟩⟩
    · simp only [List.map_cons, itemsToValues, hv, hvs]; rfl
    · simp only [List.map_cons, Json.itemsToValues, hw, hws]; rfl

/-- The fields of a structure and the members of an object, pair by pair. -/
theorem exists_fields {ps : List (String × Typed × Json)}
    (h : ∀ p ∈ ps, ∃ v w, p.2.1.toValue = .ok v ∧ p.2.2.toValue = .ok w ∧ Value.Twin v w) :
    ∃ qs : List (String × Value × Value),
      fieldsToValues (ps.map fun p => (p.1, p.2.1)) = .ok (qs.map fun q => (q.1, q.2.1)) ∧
      Json.membersToEntries (ps.map fun p => (p.1, p.2.2)) = .ok (qs.map fun q => (q.1, q.2.2)) ∧
      qs.map (·.1) = ps.map (·.1) ∧ ∀ q ∈ qs, Value.Twin q.2.1 q.2.2 := by
  induction ps with
  | nil => exact ⟨[], rfl, rfl, rfl, by nofun⟩
  | cons p ps ih =>
    obtain ⟨v, w, hv, hw, htwin⟩ := h p List.mem_cons_self
    obtain ⟨qs, hvs, hws, hkeys, htwins⟩ := ih fun p hp => h p (List.mem_cons_of_mem _ hp)
    refine ⟨(p.1, v, w) :: qs, ?_, ?_, ?_, List.forall_mem_cons.mpr ⟨htwin, htwins⟩⟩
    · simp only [List.map_cons, fieldsToValues, hv, hvs]; rfl
    · simp only [List.map_cons, Json.membersToEntries, hw, hws]; rfl
    · rw [List.map_cons, List.map_cons, hkeys]

/-- Members in another order stand for entries in another order. -/
theorem exists_membersToEntries {ms ms' : List (String × Json)} {es : List (String × Value)}
    (hperm : ms'.Perm ms) (h : Json.membersToEntries ms = .ok es) :
    ∃ es', Json.membersToEntries ms' = .ok es' ∧ es'.Perm es := by
  induction hperm generalizing es with
  | nil => exact ⟨es, h, .refl _⟩
  | cons m _ ih =>
    obtain ⟨v, hv, h⟩ := Outcome.bind_eq_ok.mp h
    obtain ⟨vs, hvs, ⟨⟩⟩ := Outcome.bind_eq_ok.mp h
    obtain ⟨es', hes', hperm'⟩ := ih hvs
    refine ⟨(m.1, v) :: es', ?_, hperm'.cons _⟩
    simp only [Json.membersToEntries, hv, hes']; rfl
  | swap m n l =>
    obtain ⟨v, hv, h⟩ := Outcome.bind_eq_ok.mp h
    obtain ⟨vs, hvs, ⟨⟩⟩ := Outcome.bind_eq_ok.mp h
    obtain ⟨w, hw, hvs⟩ := Outcome.bind_eq_ok.mp hvs
    obtain ⟨ws, hws, ⟨⟩⟩ := Outcome.bind_eq_ok.mp hvs
    refine ⟨(n.1, w) :: (m.1, v) :: ws, ?_, .swap _ _ _⟩
    simp only [Json.membersToEntries, hv, hw, hws]; rfl
  | trans _ _ ih₁ ih₂ =>
    obtain ⟨es', hes', hperm'⟩ := ih₂ h
    obtain ⟨es'', hes'', hperm''⟩ := ih₁ hes'
    exact ⟨es'', hes'', hperm''.trans hperm'⟩

/-- Data of one shape stand for twins. -/
theorem SameShape.twin {d : Typed} {j : Json} (h : SameShape d j) :
    ∃ v w, d.toValue = .ok v ∧ j.toValue = .ok w ∧ Value.Twin v w := by
  induction h with
  | bool b => exact ⟨_, _, rfl, rfl, .leaf rfl⟩
  | double x => exact ⟨_, _, rfl, rfl, .leaf rfl⟩
  | string s => exact ⟨_, _, rfl, rfl, .leaf rfl⟩
  | @int32 n hlow hhigh =>
    have hn : n < int64Bound := by unfold int32Bound at hhigh; unfold int64Bound; omega
    refine ⟨.int (Int32.ofInt n), .long (Int64.ofInt n), rfl, if_pos hn, ?_⟩
    have hlong : (Int32.ofInt n).toInt64 = Int64.ofInt n := by
      rw [← Int64.toInt_inj, Int32.toInt_toInt64, Int32.toInt_ofInt_of_le hlow hhigh,
        Int64.toInt_ofInt_of_le ?_ hn]
      unfold int32Bound at hlow
      omega
    exact hlong ▸ .int _
  | int64 hlow hhigh => exact ⟨_, _, rfl, if_pos hhigh, .leaf rfl⟩
  | seq _ ih =>
    obtain ⟨qs, hvs, hws, htwins⟩ := exists_items ih
    refine ⟨_, _, ?_, ?_, .array htwins⟩
    · rw [toValue, hvs]; rfl
    · rw [Json.toValue, hws]; rfl
  | @struct ps members hnodup _ hmembers ih =>
    obtain ⟨qs, hvs, hws, hkeys, htwins⟩ := exists_fields ih
    obtain ⟨es, hes, hperm⟩ := exists_membersToEntries hmembers hws
    refine ⟨_, .map es, by rw [toValue, hvs]; rfl, by rw [Json.toValue, hes]; rfl, ?_⟩
    have hps : (qs.map fun q => (q.1, q.2.1)).map (·.1) = ps.map (·.1) := by
      rw [List.map_map]; exact hkeys
    have hes' : (es.map (·.1)).Nodup := by
      rw [(hperm.map (·.1)).nodup_iff, List.map_map]
      exact hkeys.symm ▸ hnodup
    have hleft (name : String) : (qs.map fun q => (q.1, q.2.1)).lookup name =
        (qs.lookup name).map (·.1) := Value.lookup_map_snd Prod.fst qs name
    have hright (name : String) : es.lookup name = (qs.lookup name).map (·.2) :=
      (Value.lookup_perm hperm hes' name).trans (Value.lookup_map_snd Prod.snd qs name)
    refine .entries (.inr ⟨rfl, hps ▸ hnodup⟩) (fun name => ?_) fun name a b ha hb => ?_
    · rw [hleft, hright, Option.isSome_map, Option.isSome_map]
    · rw [hleft] at ha
      rw [hright] at hb
      obtain ⟨⟨a', b'⟩, hq, rfl⟩ := Option.map_eq_some_iff.mp ha
      rw [hq] at hb
      cases hb
      obtain ⟨l₁, l₂, heq, -⟩ := List.lookup_eq_some_iff.mp hq
      exact htwins (name, a', b') (by simp [heq])

end Typed

namespace Kind

/-- A kind that is neither of unions nor of maps. -/
def isPlain : Kind → Bool
  | union | map => false
  | _ => true

/-- A date or time of day in 32 bits. -/
def isIntTime : Kind → Bool
  | intTime _ => true
  | _ => false

end Kind

namespace Writer

open Outcome (Alike)

variable {schema : Schema} {d : Typed} {j : Json}

/-- What data of one shape resolve to: the same without dates and times of day, or errors both, or
the JSON value is refused because it has a long where a date or time of day is due. -/
theorem resolve_sameShape {allowed : Kind → Bool} (hunion : allowed .union = false)
    (hmap : allowed .map = false) (hint : allowed .int = true) (hs : schema.only allowed)
    (h : d.SameShape j) :
    (resolve schema d = resolve schema j ∧ ∀ r, resolve schema d = .ok r → r.isTimeless) ∨
      (∃ e e', resolve schema d = .error (.error e) ∧ resolve schema j = .error (.error e')) ∨
      ∃ t, allowed (.intTime t) ∧
        resolve schema j = .error (.error (.mismatch (.kind (.intTime t) .long))) ∧
        ∀ r, resolve schema d = .ok r → ¬r.isTimeless := by
  obtain ⟨v, w, hv, hw, htwin⟩ := h.twin
  have hv : Datum.toValue d = .ok v := hv
  have hw : Datum.toValue j = .ok w := hw
  have hstopped {stop : Stop EncodingFailure} (hv' : resolveValue schema v = .error stop)
      (hw' : resolveValue schema w = .error stop) :
      resolve schema d = resolve schema j ∧ ∀ r, resolve schema d = .ok r → r.isTimeless := by
    rw [resolve_of_error hv hv', resolve_of_error hw hw']
    exact ⟨rfl, by nofun⟩
  cases hnames : schema.names with
  | error e =>
    have hnone (u : Value) : resolveValue schema u = .fail (.names e) := by
      rw [resolveValue, hnames]
    exact .inl (hstopped (hnone v) (hnone w))
  | ok names =>
    have hends := htwin.ends hunion hmap hint
      (Fallback.ofDepth_timeless hunion hmap hint (Value.defaultDepth names schema)) schema.ns
      (Schema.names_only hs hnames) hs
    have hvalue (u : Value) : resolveValue schema u =
        (u.fit (.ofDepth (Value.defaultDepth names schema)) names schema.ns schema).mapError
          .mismatch := by
      rw [resolveValue, hnames]
      rfl
    have hv' := hvalue v
    have hw' := hvalue w
    generalize v.fit _ names schema.ns schema = x at hends hv'
    generalize w.fit _ names schema.ns schema = y at hends hw'
    cases hends with
    | @ok r ht hgood =>
      have hcheck : v.checkNarrowing r = w.checkNarrowing r := hgood
      have hd := resolve_of_resolveValue rfl hv hv'
      rw [hcheck] at hd
      refine .inl ⟨hd.trans (resolve_of_resolveValue rfl hw hw').symm, fun r' hr' => ?_⟩
      rw [hd] at hr'
      split at hr' <;> cases hr'
      exact ht
    | error e e' => exact .inr (.inl ⟨_, _, resolve_of_error hv hv', resolve_of_error hw hw'⟩)
    | fault f => exact .inl (hstopped hv' hw')
    | refused t hallowed hx =>
      refine .inr (.inr ⟨t, hallowed, resolve_of_error hw hw', fun r hr => ?_⟩)
      cases x with
      | error stop => rw [resolve_of_error hv hv'] at hr; cases hr
      | ok r' =>
        rw [resolve_of_resolveValue rfl hv hv'] at hr
        split at hr <;> cases hr
        exact hx _ rfl

/-- Data of one shape have the same direct encoding, or both end in an encoding error or in the same
fault, or the JSON value is refused because it has a long where a date or time of day is due. The
last cannot be where the schema has none of these, and it is so whenever what the typed datum
resolves to has one. -/
theorem encode_sameShape {w : Writer} (hw : Ready schema w) (hs : schema.only Kind.isPlain)
    (h : d.SameShape j) :
    (Alike Eq (w.encode d).1 (w.encode j).1 ∨
        ∃ t, (w.encode j).1 =
          .error (.error (.encoding (.mismatch (.kind (.intTime t) .long))))) ∧
      (schema.only (fun k => k.isPlain && !k.isIntTime) →
        Alike Eq (w.encode d).1 (w.encode j).1) ∧
      ∀ r, resolve schema d = .ok r →
        (r.isTimeless → (w.encode j).1 = (w.encode d).1) ∧
          (¬r.isTimeless → ∃ t, (w.encode j).1 =
            .error (.error (.encoding (.mismatch (.kind (.intTime t) .long))))) := by
  refine ⟨?_, fun hs' => ?_, fun r hr => ?_⟩
  · rcases resolve_sameShape rfl rfl rfl hs h with ⟨heq, -⟩ | ⟨e, e', hd, hj⟩ | ⟨t, -, hj, -⟩
    · exact .inl (.of_eq (congrArg Prod.fst (encode_of_resolve hw heq)))
    · rw [encode_of_resolve_error hw hd, encode_of_resolve_error hw hj]
      exact .inl (.error _ _)
    · exact .inr ⟨t, encode_of_resolve_error hw hj⟩
  · rcases resolve_sameShape rfl rfl rfl hs' h with ⟨heq, -⟩ | ⟨e, e', hd, hj⟩ | ⟨t, ht, -, -⟩
    · exact .of_eq (congrArg Prod.fst (encode_of_resolve hw heq))
    · rw [encode_of_resolve_error hw hd, encode_of_resolve_error hw hj]
      exact .error _ _
    · cases ht
  · rcases resolve_sameShape rfl rfl rfl hs h with ⟨heq, ht⟩ | ⟨e, e', hd, -⟩ | ⟨t, -, hj, ht⟩
    · exact ⟨fun _ => congrArg Prod.fst (encode_of_resolve hw heq).symm,
        fun hnot => absurd (ht r hr) hnot⟩
    · cases hd.symm.trans hr
    · exact ⟨fun h => absurd h (ht r hr), fun _ => ⟨t, encode_of_resolve_error hw hj⟩⟩

/-- A record of an int and a list of longs. -/
def visitSchema : Schema :=
  .record ⟨none, "Visit"⟩ [⟨"n", [], none, .int⟩, ⟨"at", [], none, .array .long⟩]

/-- The structure and the object, with their fields in another order, give the same bytes. -/
theorem encode_sameShape_visit :
    ∃ w, forSchema visitSchema = .ok w ∧
      (w.encode (Typed.struct [("n", .int .int32 5), ("at", .seq [.int .int64 7])])).1 =
        .ok [10, 2, 14, 0] ∧
      (w.encode (Json.object [("at", .array [.int 7]), ("n", .int 5)])).1 = .ok [10, 2, 14, 0] := by
  obtain ⟨w, hw⟩ : ∃ w, forSchema visitSchema = .ok w := ⟨_, rfl⟩
  have hready := ready_of_create (create_of_forSchema hw)
  have hseq : (Typed.seq [.int .int64 7]).SameShape (.array [.int 7]) :=
    @Typed.SameShape.seq [(.int .int64 7, .int 7)]
      (List.forall_mem_singleton.mpr (.int64 (by decide) (by decide)))
  have hshape : (Typed.struct [("n", .int .int32 5), ("at", .seq [.int .int64 7])]).SameShape
      (.object [("at", .array [.int 7]), ("n", .int 5)]) :=
    @Typed.SameShape.struct
      [("n", .int .int32 5, .int 5), ("at", .seq [.int .int64 7], .array [.int 7])] _ (by decide)
      (List.forall_mem_cons.mpr ⟨.int32 (by decide) (by decide),
        List.forall_mem_singleton.mpr hseq⟩)
      (.swap _ _ _)
  have hdirect : direct visitSchema
      (Typed.struct [("n", .int .int32 5), ("at", .seq [.int .int64 7])]) =
        .ok [10, 2, 14, 0] := by with_unfolding_all rfl
  have hencode := (encode_ready hready _).trans (Outcome.mapError_eq_ok.mpr hdirect)
  obtain ⟨-, halike, -⟩ := encode_sameShape hready (by decide) hshape
  refine ⟨w, hw, hencode, ?_⟩
  have h := halike (by decide)
  rw [hencode] at h
  generalize (w.encode (Json.object [("at", .array [.int 7]), ("n", .int 5)])).1 = o at h
  cases h with
  | ok heq => rw [← heq]

/-- A date takes the int that it is, and not the integer of the same number. -/
theorem encode_sameShape_date :
    ∃ w, forSchema (.intTime .date) = .ok w ∧ (Typed.int .int32 5).SameShape (.int 5) ∧
      (w.encode (Typed.int .int32 5)).1 = .ok [10] ∧
      (w.encode (Json.int 5)).1 =
        .error (.error (.encoding (.mismatch (.kind (.intTime .date) .long)))) :=
  ⟨_, rfl, .int32 (by decide) (by decide), by with_unfolding_all rfl, rfl⟩

end Writer
end RecordTape
