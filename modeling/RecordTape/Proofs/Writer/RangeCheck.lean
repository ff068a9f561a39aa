import RecordTape.Proofs.Value.Standing
import RecordTape.Proofs.Writer.ReadBack
/-!
# The range check on JSON data

The writer refuses a JSON value for a narrowed long exactly if some integer of it is outside the
range of ints and an int stands in its place after resolution (`encode_narrowed_iff`). An integer
that landed anywhere else, or nowhere, is never the reason.

Values without longs are not checked at all, which comes to the same as checking them
(`skipped_check_passes`).
-/

namespace RecordTape

namespace Value

/-! ## Values without longs -/

theorem containsLong_content (v : Value) : v.content.containsLong = v.containsLong := by
  cases v <;> rfl

theorem longless_of_mem {items : List Value} (h : anyLong items = false) {v : Value}
    (hv : v ∈ items) : v.containsLong = false := by
  by_contra hlong
  rw [Bool.not_eq_false] at hlong
  exact absurd (anyLong_of_mem hv hlong) (by simp [h])

theorem longless_of_entry? {v g : Value} {name : String} (h : v.containsLong = false)
    (hg : entry? name v = some g) : g.containsLong = false := by
  by_contra hlong
  rw [Bool.not_eq_false] at hlong
  cases v with
  | map entries | record entries =>
    have hany := anyEntryLong_of_mem (mem_of_lookup hg) hlong
    rw [containsLong] at h
    exact absurd hany (by simp [h])
  | _ => cases hg

mutual

/-- Nothing of a value that holds no long is narrowed, whatever it is held against. -/
theorem checkNarrowing_of_longless {v : Value} (r : Value) (h : v.containsLong = false) :
    v.checkNarrowing r = .ok () := by
  cases r with
  | int i | intTime t i =>
    cases v with
    | long n => cases h
    | _ => rfl
  | union k r =>
    rw [checkNarrowing]
    exact checkNarrowing_of_longless r ((containsLong_content v).trans h)
  | array rs =>
    cases v with
    | array items => exact checkItems_of_longless rs fun v hv => longless_of_mem h hv
    | _ => rfl
  | map rs | record rs =>
    cases v with
    | map entries => exact checkEntries_of_longless rs fun name g hg => longless_of_entry? h hg
    | record entries =>
      first
        | rfl
        | exact checkEntries_of_longless rs fun name g hg => longless_of_entry? h hg
    | _ => rfl
  | _ => rfl

theorem checkItems_of_longless {items : List Value} (rs : List Value)
    (h : ∀ v ∈ items, v.containsLong = false) : checkItems items rs = .ok () := by
  cases rs with
  | nil => cases items <;> rfl
  | cons r rs =>
    cases items with
    | nil => rfl
    | cons v items =>
      rw [checkItems, checkNarrowing_of_longless r (h v List.mem_cons_self)]
      exact checkItems_of_longless rs fun v hv => h v (List.mem_cons_of_mem _ hv)

theorem checkEntries_of_longless {v : Value} (rs : List (String × Value))
    (h : ∀ name g, entry? name v = some g → g.containsLong = false) :
    checkEntries v rs = .ok () := by
  cases rs with
  | nil => rfl
  | cons p rs =>
    obtain ⟨name, r⟩ := p
    have hrest := checkEntries_of_longless rs h
    rw [checkEntries]
    cases hg : entry? name v with
    | none => exact hrest
    | some g =>
      simp only [checkNarrowing_of_longless r (h name g hg)]
      exact hrest

end

end Value

namespace Writer

variable {α : Type} [Datum α] {schema : Schema} {d : α}

/-- The check decides alone what a value that has a form under the schema is resolved to: it would
find nothing where it is not run. -/
theorem resolve_of_made {given made : Value} (hgiven : Datum.toValue d = .ok given)
    (hmade : resolveValue schema given = .ok made) :
    resolve schema d =
      match given.checkNarrowing ((Datum.arrangement d).arrange made) with
      | .ok () => .ok ((Datum.arrangement d).arrange made)
      | .error n => .error (.error (.narrowed n)) := by
  rw [resolve, hgiven]
  simp only [bind, Except.bind, pure, Except.pure, hmade]
  cases hlong : given.containsLong with
  | true => rfl
  | false =>
    rw [Value.checkNarrowing_of_longless _ hlong]
    rfl

theorem resolve_of_resolveValue {given r : Value} (horder : Datum.arrangement d = .listed)
    (hgiven : Datum.toValue d = .ok given) (hr : resolveValue schema given = .ok r) :
    resolve schema d =
      match given.checkNarrowing r with
      | .ok () => .ok r
      | .error n => .error (.error (.narrowed n)) := by
  rw [resolve_of_made hgiven hr, horder, Arrangement.listed_arrange]

theorem resolve_of_error {given : Value} {stop : Stop EncodingFailure}
    (hgiven : Datum.toValue d = .ok given) (h : resolveValue schema given = .error stop) :
    resolve schema d = .error stop := by
  rw [resolve, hgiven]
  simp only [bind, Except.bind, pure, Except.pure, h]

/-- Resolution of a value where the check is always run, and holds another value against the form
that the first one takes. -/
def resolveHeld (order : Arrangement) (schema : Schema) (given held : Value) :
    Outcome EncodingFailure Value := do
  let r := order.arrange (← resolveValue schema given)
  match held.checkNarrowing r with
  | .ok () => return r
  | .error n => .fail (.narrowed n)

theorem resolve_eq_resolveHeld {given : Value} (hgiven : Datum.toValue d = .ok given) :
    resolve schema d = resolveHeld (Datum.arrangement d) schema given given := by
  cases hr : resolveValue schema given with
  | error stop => rw [resolve_of_error hgiven hr, resolveHeld, hr]; rfl
  | ok r => rw [resolve_of_made hgiven hr, resolveHeld, hr]; rfl

/-- Resolution that keeps every value and runs the check on all of them. -/
def resolveChecked (schema : Schema) (d : α) : Outcome EncodingFailure Value := do
  let v ← match Datum.toValue d with
    | .ok v => pure v
    | .error e => .fail (.datum e)
  resolveHeld (Datum.arrangement d) schema v v

/-- A value without longs passes the check against any value at all, so that resolution comes to
what it would come to if the check were never skipped. -/
theorem skipped_check_passes (schema : Schema) (d : α) :
    (∀ v r : Value, v.containsLong = false → v.checkNarrowing r = .ok ()) ∧
      resolve schema d = resolveChecked schema d := by
  refine ⟨fun v r h => Value.checkNarrowing_of_longless r h, ?_⟩
  cases hgiven : Datum.toValue d with
  | error e => rw [resolve, resolveChecked, hgiven]; rfl
  | ok given => rw [resolve_eq_resolveHeld hgiven, resolveChecked, hgiven]; rfl

/-- The check is skipped for a record whose only int is a default, and an int is held against
another one without complaint. -/
theorem skipped_check_passes_default :
    let schema : Schema := .record ⟨none, "U"⟩ [⟨"unit", [], some (.int 7), .int⟩]
    let d : Json := .object [("spare", .double (.ofInt 1))]
    let v : Value := .record [("unit", .int 5)]
    let r : Value := .union 1 (.record [("unit", .int 7)])
    (v.containsLong = false ∧ v.checkNarrowing r = .ok ()) ∧
      resolve schema d = resolveChecked schema d ∧
      resolve schema d = .ok (.record [("unit", .int 7)]) := by
  intro schema d v r
  obtain ⟨hpasses, hresolve⟩ := skipped_check_passes schema d
  exact ⟨⟨rfl, hpasses v r rfl⟩, hresolve, rfl⟩

theorem encode_of_resolve_error {w : Writer} {stop : Stop EncodingFailure} (hw : Ready schema w)
    (h : resolve schema d = .error stop) : (w.encode d).1 = .error (stop.map .encoding) := by
  rw [encode_ready hw, direct, h]
  rfl

theorem encodeValue_ne_narrowed (schema : Schema) (v : Value) (n : Int64) :
    (encodeValue schema v).2 ≠ some (.error (.narrowed n)) := by
  unfold encodeValue
  split
  · nofun
  · split
    · nofun
    · nofun
    · intro h
      obtain ⟨stop, -, heq⟩ := Option.map_eq_some_iff.mp h
      cases stop <;> cases heq

theorem mapError_eq_narrowed {o : Outcome EncodingFailure Bytes} {n : Int64} :
    o.mapError TapeError.encoding = .error (.error (.encoding (.narrowed n))) ↔
      o = .error (.error (.narrowed n)) := by
  rcases o with (e | f) | b <;> simp [Outcome.mapError, Stop.map]

/-- Only resolution reports a narrowed long. -/
theorem direct_eq_narrowed {n : Int64} :
    direct schema d = .error (.error (.narrowed n)) ↔
      resolve schema d = .error (.error (.narrowed n)) := by
  unfold direct
  cases resolve schema d with
  | error stop => constructor <;> intro h <;> cases h <;> rfl
  | ok v =>
    have hne := encodeValue_ne_narrowed schema v n
    simp only [bind, Except.bind]
    generalize encodeValue schema v = p at hne
    obtain ⟨b, stop⟩ := p
    cases stop with
    | none => exact ⟨nofun, nofun⟩
    | some stop => exact ⟨fun h => by cases h; exact absurd rfl hne, nofun⟩

end Writer

/-! ## Integers of JSON values -/

namespace Json

/-- A part of the value is the value of a part. -/
theorem exists_of_partAt_value {j : Json} {v u : Value} {path : List Step}
    (h : j.toValue = .ok v) (hu : v.partAt path = some u) :
    ∃ part, j.partAt path = some part ∧ part.toValue = .ok u := by
  induction path generalizing j v with
  | nil =>
    cases hu
    exact ⟨j, rfl, h⟩
  | cons step path ih =>
    cases j with
    | array items =>
      obtain ⟨values, hvalues, ⟨⟩⟩ := Outcome.bind_eq_ok.mp h
      cases step with
      | item i =>
        obtain ⟨w, hw, hu⟩ := Option.bind_eq_some_iff.mp hu
        obtain ⟨item, hitem, hvalue⟩ :=
          Value.exists_left_of_rel (Value.rel_getElem? (forall₂_of_itemsToValues hvalues) i) hw
        simpa only [partAt, hitem, Option.bind_some] using ih hvalue hu
      | member name => cases hu
    | object members =>
      obtain ⟨entries, hentries, ⟨⟩⟩ := Outcome.bind_eq_ok.mp h
      cases step with
      | item i => cases hu
      | member name =>
        obtain ⟨w, hw, hu⟩ := Option.bind_eq_some_iff.mp hu
        obtain ⟨member, hmember, hvalue⟩ :=
          Value.exists_left_of_rel ((related_of_membersToEntries hentries).lookup name) hw
        simpa only [partAt, hmember, Option.bind_some] using ih hvalue hu
    | int n =>
      obtain ⟨-, rfl⟩ := toValue_int h
      cases step <;> cases hu
    | _ => cases h; cases step <;> cases hu

/-- Only an integer has a long as its value. -/
theorem int_of_toValue_long {j : Json} {m : Int64} (h : j.toValue = .ok (.long m)) :
    ∃ n, j = .int n ∧ n < int64Bound ∧ m = Int64.ofInt n := by
  cases j with
  | int n =>
    obtain ⟨hn, heq⟩ := toValue_int h
    cases heq
    exact ⟨n, rfl, hn, rfl⟩
  | array items =>
    obtain ⟨_, -, ⟨⟩⟩ := Outcome.bind_eq_ok.mp h
  | object members =>
    obtain ⟨_, -, ⟨⟩⟩ := Outcome.bind_eq_ok.mp h
  | _ => cases h

theorem isProper_of_partAt {j part : Json} {path : List Step} (hj : j.isProper)
    (h : j.partAt path = some part) : part.isProper := by
  induction path generalizing j with
  | nil => cases h; exact hj
  | cons step path ih =>
    cases step with
    | item i =>
      cases j with
      | array items =>
        obtain ⟨item, hitem, h⟩ := Option.bind_eq_some_iff.mp h
        exact ih (areProper_iff.mp hj item (List.mem_of_getElem? hitem)) h
      | _ => cases h
    | member name =>
      cases j with
      | object members =>
        obtain ⟨member, hmember, h⟩ := Option.bind_eq_some_iff.mp h
        simp only [isProper, Bool.and_eq_true] at hj
        obtain ⟨l₁, l₂, hmembers, -⟩ := List.lookup_eq_some_iff.mp hmember
        exact ih (membersProper_iff.mp hj.2 (name, member) (by simp [hmembers])) h
      | _ => cases h

/-- Cut down to 32 bits and widened again, a long is unchanged if it is in the range of ints. -/
theorem toInt64_toInt32_eq_iff {n : Int} (hlow : -int64Bound ≤ n) (hhigh : n < int64Bound) :
    (Int64.ofInt n).toInt32.toInt64 = Int64.ofInt n ↔ -int32Bound ≤ n ∧ n < int32Bound := by
  have hexact : (Int64.ofInt n).toInt = n := Int64.toInt_ofInt_of_le hlow hhigh
  rw [← Int64.toInt_inj, Int32.toInt_toInt64, Int64.toInt_toInt32, hexact]
  constructor
  · intro h
    have hle := Int.le_bmod (x := n) (m := 2 ^ 32) (by decide)
    have hlt := Int.bmod_lt (x := n) (m := 2 ^ 32) (by decide)
    unfold int32Bound
    omega
  · rintro ⟨hle, hlt⟩
    unfold int32Bound at hle hlt
    exact Int.bmod_eq_of_le (by omega) (by omega)

/-- The integer is outside the range of ints, and at a place of it the other value has an int. -/
def Misfit (j : Json) (r : Value) (n : Int) : Prop :=
  ¬(-int32Bound ≤ n ∧ n < int32Bound) ∧ ∃ path, j.partAt path = some (.int n) ∧ r.intsAt path ≠ []

section Check

variable {j : Json} {given r : Value} {fallback : Fallback} {names : Names} {ns : Namespace}
  {s : Schema} (hj : j.isProper) (hgiven : j.toValue = .ok given)
  (h : given.fit fallback names ns s = .ok r)
include hj hgiven h

/-- A long that is reported is an integer that does not fit the int it was cut down to. -/
theorem misfit_of_checkNarrowing {m : Int64} (hcheck : given.checkNarrowing r = .error m) :
    j.Misfit r m.toInt := by
  have htree := isTree_of_toValue j hj hgiven
  obtain ⟨path, i, hm, hi, hne⟩ := Value.exists_of_checkNarrowing r htree hcheck
  rw [Value.eq_toInt32_of_intsAt htree h hm hi] at hne
  obtain ⟨part, hpart, hvalue⟩ := exists_of_partAt_value hgiven hm
  obtain ⟨n, rfl, hhigh, rfl⟩ := int_of_toValue_long hvalue
  have hlow : -int64Bound ≤ n := of_decide_eq_true (isProper_of_partAt hj hpart)
  rw [Ne, toInt64_toInt32_eq_iff hlow hhigh] at hne
  rw [Int64.toInt_ofInt_of_le hlow hhigh]
  exact ⟨hne, path, hpart, List.ne_nil_of_mem hi⟩

/-- Where nothing is reported every integer fits the int it was cut down to. -/
theorem not_misfit_of_checkNarrowing (hcheck : given.checkNarrowing r = .ok ()) (n : Int) :
    ¬j.Misfit r n := by
  rintro ⟨hrange, path, hpart, hints⟩
  obtain ⟨i, hi⟩ := List.exists_mem_of_ne_nil _ hints
  obtain ⟨u, hu, hvalue⟩ := partAt_of_toValue hgiven hpart
  obtain ⟨hhigh, rfl⟩ := toValue_int hvalue
  have hlow : -int64Bound ≤ n := of_decide_eq_true (isProper_of_partAt hj hpart)
  have heq := Value.eq_of_checkNarrowing hcheck hu hi
  rw [Value.eq_toInt32_of_intsAt (isTree_of_toValue j hj hgiven) h hu hi] at heq
  exact hrange ((toInt64_toInt32_eq_iff hlow hhigh).mp heq)

end Check

end Json

namespace Writer

theorem fit_of_resolveValue {schema : Schema} {v r : Value} (h : resolveValue schema v = .ok r) :
    ∃ fallback names, v.fit fallback names schema.ns schema = .ok r := by
  unfold resolveValue at h
  cases hnames : schema.names with
  | error e => rw [hnames] at h; cases h
  | ok names =>
    rw [hnames] at h
    exact ⟨_, names, Outcome.mapError_eq_ok.mp h⟩

/-- The writer reports a narrowed long exactly if there is a misfit, and then one that is; the value
is resolved to the form it has under the schema exactly if there is none. -/
theorem encode_narrowed_iff {schema : Schema} {w : Writer} {j : Json} {given r : Value}
    (hw : Ready schema w) (hj : j.isProper) (hgiven : Datum.toValue j = .ok given)
    (hr : resolveValue schema given = .ok r) :
    ((∃ n, (w.encode j).1 = .error (.error (.encoding (.narrowed n)))) ↔ ∃ n, j.Misfit r n) ∧
      (∀ n, (w.encode j).1 = .error (.error (.encoding (.narrowed n))) → j.Misfit r n.toInt) ∧
      (resolve schema j = .ok r ↔ ¬∃ n, j.Misfit r n) := by
  obtain ⟨fallback, names, hfit⟩ := fit_of_resolveValue hr
  have hresolve := resolve_of_resolveValue rfl hgiven hr
  have hreports (n : Int64) : (w.encode j).1 = .error (.error (.encoding (.narrowed n))) ↔
      given.checkNarrowing r = .error n := by
    rw [encode_ready hw, mapError_eq_narrowed, direct_eq_narrowed, hresolve]
    cases given.checkNarrowing r <;> simp
  have hfound (n : Int64) (h : given.checkNarrowing r = .error n) : j.Misfit r n.toInt :=
    Json.misfit_of_checkNarrowing hj hgiven hfit h
  cases hcheck : given.checkNarrowing r with
  | ok _ =>
    rw [hcheck] at hresolve
    have hnone : ¬∃ n, j.Misfit r n :=
      fun ⟨n, hn⟩ => Json.not_misfit_of_checkNarrowing hj hgiven hfit hcheck n hn
    refine ⟨iff_of_false ?_ hnone, ?_, iff_of_true hresolve hnone⟩
    · rintro ⟨n, hn⟩
      cases hcheck.symm.trans ((hreports n).mp hn)
    · intro n hn
      exact hfound n ((hreports n).mp hn)
  | error n =>
    rw [hcheck] at hresolve
    have hmisfit : ∃ n, j.Misfit r n := ⟨n.toInt, hfound n hcheck⟩
    refine ⟨iff_of_true ⟨n, (hreports n).mpr hcheck⟩ hmisfit, ?_, ?_⟩
    · intro n hn
      exact hfound n ((hreports n).mp hn)
    · exact iff_of_false (by rw [hresolve]; nofun) (not_not_intro hmisfit)

/-- A record of an int, a long, ints that may be missing, doubles and a number with a default. -/
def readingSchema : Schema :=
  .record ⟨none, "Reading"⟩
    [⟨"n", [], none, .int⟩, ⟨"total", [], none, .long⟩,
      ⟨"samples", [], none, .array (.union [.null, .int])⟩, ⟨"rates", [], none, .map .double⟩,
      ⟨"unit", [], some (.int 7), .int⟩]

/-- A reading with these samples, and with integers of more than 32 bits where no int is due. -/
def reading (samples : List Json) : Json :=
  .object [("n", .int (-2147483648)), ("total", .int 4294967301), ("samples", .array samples),
    ("rates", .object [("x", .int 4294967301)]), ("spare", .array [.int 4294967301])]

/-- Only a sample that does not fit is a reason to refuse a reading. -/
theorem encode_narrowed_iff_readings :
    ∃ w r r' n, forSchema readingSchema = .ok w ∧
      resolve readingSchema (reading [.null, .int 3]) = .ok r ∧
      (¬∃ n, (reading [.null, .int 3]).Misfit r n) ∧
      (w.encode (reading [.null, .int 4294967301])).1 = .error (.error (.encoding (.narrowed n))) ∧
      (reading [.null, .int 4294967301]).Misfit r' n.toInt := by
  obtain ⟨w, hw⟩ : ∃ w, forSchema readingSchema = .ok w := ⟨_, rfl⟩
  have hready := ready_of_create (create_of_forSchema hw)
  obtain ⟨r, hr, hresolve⟩ : ∃ r,
      resolveValue readingSchema (Value.ofJson (reading [.null, .int 3])) = .ok r ∧
        resolve readingSchema (reading [.null, .int 3]) = .ok r := ⟨_, rfl, rfl⟩
  obtain ⟨r', hr', hmisfit⟩ : ∃ r',
      resolveValue readingSchema (Value.ofJson (reading [.null, .int 4294967301])) = .ok r' ∧
        (reading [.null, .int 4294967301]).Misfit r' 4294967301 :=
    ⟨_, rfl, by decide, [.member "samples", .item 1], rfl, by decide⟩
  obtain ⟨-, -, hfits⟩ :=
    encode_narrowed_iff (j := reading [.null, .int 3]) hready (by decide) rfl hr
  obtain ⟨hreports, hreported, -⟩ :=
    encode_narrowed_iff (j := reading [.null, .int 4294967301]) hready (by decide) rfl hr'
  obtain ⟨n, hn⟩ := hreports.mpr ⟨_, hmisfit⟩
  exact ⟨w, r, r', n, hw, hresolve, hfits.mp hresolve, hn, hreported n hn⟩

end Writer
end RecordTape
