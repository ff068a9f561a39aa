import RecordTape.Proofs.Schema.Parts
import RecordTape.Proofs.Value.Descent
/-!
# Twins

A typed datum and a JSON value of the same shape stand for values that differ in two ways: small
integers are ints in one and longs in the other, structures are records in one and maps in the
other. Two such values are twins. Where a schema has no union and no map they resolve to the same
and pass the same checks, with one exception: a date or time of day takes an int and no long
(`Twin.ends`).
-/

namespace RecordTape

namespace Value

/-! ## Dates and times of day -/

mutual

/-- The value has no date and no time of day in 32 bits in it. -/
def isTimeless : Value → Bool
  | .intTime .. => false
  | .array items => areTimeless items
  | .map entries => entriesTimeless entries
  | .record fields => entriesTimeless fields
  | .union _ v => isTimeless v
  | _ => true

def areTimeless : List Value → Bool
  | [] => true
  | v :: rest => isTimeless v && areTimeless rest

def entriesTimeless : List (String × Value) → Bool
  | [] => true
  | (_, v) :: rest => isTimeless v && entriesTimeless rest

end

theorem areTimeless_iff {items : List Value} : areTimeless items ↔ ∀ v ∈ items, v.isTimeless := by
  induction items with
  | nil => simp [areTimeless]
  | cons v rest ih => simp [areTimeless, ih]

theorem entriesTimeless_iff {entries : List (String × Value)} :
    entriesTimeless entries ↔ ∀ p ∈ entries, p.2.isTimeless := by
  induction entries with
  | nil => simp [entriesTimeless]
  | cons p rest ih => simp [entriesTimeless, ih]

/-! ## Twins -/

/-- Values without parts that JSON values stand for. -/
def isJsonLeaf : Value → Bool
  | .null | .boolean _ | .long _ | .double _ | .string _ => true
  | _ => false

/-- The second value is what the first one is as a JSON value. -/
inductive Twin : Value → Value → Prop
  | leaf {v : Value} : v.isJsonLeaf → Twin v v
  | int (n : Int32) : Twin (.int n) (.long n.toInt64)
  | array {ps : List (Value × Value)} : (∀ p ∈ ps, Twin p.1 p.2) →
      Twin (.array (ps.map (·.1))) (.array (ps.map (·.2)))
  | entries {v : Value} {es fs : List (String × Value)} :
      (v = .map es ∨ v = .record es ∧ (es.map (·.1)).Nodup) →
      (∀ name, (es.lookup name).isSome = (fs.lookup name).isSome) →
      (∀ name a b, es.lookup name = some a → fs.lookup name = some b → Twin a b) →
      Twin v (.map fs)

namespace Twin

theorem isUnion_left {v w : Value} (h : Twin v w) : v.isUnion = false := by
  cases h with
  | leaf h => cases v <;> first | rfl | cases h
  | entries h =>
    rcases h with rfl | ⟨rfl, -⟩ <;> rfl
  | _ => rfl

mutual

/-- What a JSON value stands for is its own twin. -/
theorem ofJson (j : Json) : Twin (ofJson j) (ofJson j) := by
  cases j with
  | array items =>
    have h := @array (items.map fun j => (Value.ofJson j, Value.ofJson j)) (by
      intro p hp
      obtain ⟨j, hj, rfl⟩ := List.mem_map.mp hp
      exact ofItems items j hj)
    rw [List.map_map, List.map_map] at h
    rw [Value.ofJson, ofItems_eq_map]
    exact h
  | object members =>
    refine entries (.inl rfl) (fun _ => rfl) fun name a b ha hb => ?_
    cases ha.symm.trans hb
    rw [ofMembers_eq_map, lookup_map_snd] at ha
    obtain ⟨j, hj, rfl⟩ := Option.map_eq_some_iff.mp ha
    obtain ⟨l₁, l₂, heq, -⟩ := List.lookup_eq_some_iff.mp hj
    exact ofMembers members (name, j) (by simp [heq])
  | _ => exact leaf rfl

theorem ofItems (items : List Json) : ∀ j ∈ items, Twin (Value.ofJson j) (Value.ofJson j) := by
  cases items with
  | nil => nofun
  | cons item rest =>
    intro j hj
    rcases List.mem_cons.mp hj with heq | hj
    · exact heq ▸ ofJson item
    · exact ofItems rest j hj

theorem ofMembers (members : List (String × Json)) :
    ∀ p ∈ members, Twin (Value.ofJson p.2) (Value.ofJson p.2) := by
  cases members with
  | nil => nofun
  | cons member rest =>
    obtain ⟨k, item⟩ := member
    intro p hp
    rcases List.mem_cons.mp hp with heq | hp
    · exact heq ▸ ofJson item
    · exact ofMembers rest p hp

end

end Twin

/-! ## How twins end -/

section Ending

variable {allowed : Kind → Bool} {α β : Type}

/-- How a computation with a value and the same one with its twin may end: in the same good result
without dates and times of day, both in errors, both in the same fault, or the second one with the
error that a date or time of day is no long. In the last case the result of the first one, if it
has any, is not without dates and times. -/
inductive Ends (allowed : Kind → Bool) (timeless good : α → Prop) :
    Outcome Mismatch α → Outcome Mismatch α → Prop
  | ok {a : α} : timeless a → good a → Ends allowed timeless good (.ok a) (.ok a)
  | error (e e' : Mismatch) :
      Ends allowed timeless good (.error (.error e)) (.error (.error e'))
  | fault (f : Fault) : Ends allowed timeless good (.error (.fault f)) (.error (.fault f))
  | refused {x : Outcome Mismatch α} (t : IntTime) : allowed (.intTime t) →
      (∀ a, x = .ok a → ¬timeless a) →
      Ends allowed timeless good x (.error (.error (.kind (.intTime t) .long)))

namespace Ends

variable {timeless good : α → Prop} {x y : Outcome Mismatch α}

theorem stopped (s : Stop Mismatch) : Ends allowed timeless good (.error s) (.error s) := by
  cases s with
  | error e => exact .error e e
  | fault f => exact .fault f

theorem bind {timeless' good' : β → Prop} {f g : α → Outcome Mismatch β}
    (h : Ends allowed timeless good x y)
    (hok : ∀ a, timeless a → good a → Ends allowed timeless' good' (f a) (g a))
    (hback : ∀ a b, f a = .ok b → timeless' b → timeless a) :
    Ends allowed timeless' good' (x >>= f) (y >>= g) := by
  cases h with
  | ok ht hg => exact hok _ ht hg
  | error e e' => exact .error e e'
  | fault f => exact .fault f
  | refused t hallowed hx =>
    refine .refused t hallowed fun b hb ht => ?_
    obtain ⟨a, ha, hb⟩ := Outcome.bind_eq_ok.mp hb
    exact hx a ha (hback a b hb ht)

/-- A result that is good is as good in another way. -/
theorem imp {good' : α → Prop} (h : Ends allowed timeless good x y)
    (hgood : ∀ a, good a → good' a) : Ends allowed timeless good' x y := by
  cases h with
  | ok ht hg => exact .ok ht (hgood _ hg)
  | error e e' => exact .error e e'
  | fault f => exact .fault f
  | refused t hallowed hx => exact .refused t hallowed hx

/-- Steps that end so one by one end so together. -/
theorem mapM {ρ : Type} {good : ρ → α → Prop} {f g : ρ → Outcome Mismatch α} {zs : List ρ}
    (h : ∀ z ∈ zs, Ends allowed timeless (good z) (f z) (g z)) :
    Ends allowed (fun as => ∀ a ∈ as, timeless a) (fun as => List.Forall₂ good zs as)
      (zs.mapM f) (zs.mapM g) := by
  induction zs with
  | nil => exact .ok (by simp) .nil
  | cons z zs ih =>
    rw [List.mapM_cons, List.mapM_cons]
    have hrest := ih fun z hz => h z (List.mem_cons_of_mem _ hz)
    refine (h z List.mem_cons_self).bind (fun a ha hgood => ?_) fun a as has ht => ?_
    · refine hrest.bind (fun as has hall => ?_) fun as as' heq ht => ?_
      · exact .ok (List.forall_mem_cons.mpr ⟨ha, has⟩) (.cons hgood hall)
      · cases heq
        exact (List.forall_mem_cons.mp ht).2
    · obtain ⟨as', -, heq⟩ := Outcome.bind_eq_ok.mp has
      cases heq
      exact (List.forall_mem_cons.mp ht).1

end Ends

end Ending

/-! ## Values without parts -/

section Leaf

variable {allowed : Kind → Bool} {s : Schema}

/-- A computation that ends in no result ends as another one that stops in the same place. -/
theorem checked_fail_ends {timeless good : Value → Prop} {check : Outcome Mismatch Unit}
    (e e' : Mismatch) :
    Ends allowed timeless good (check >>= fun _ => .fail e) (check >>= fun _ => .fail e') := by
  cases check with
  | error stop => exact .stopped stop
  | ok _ => exact .error e e'

theorem isTimeless_resolveLeaf {v r : Value} (hv : v.isJsonLeaf) (h : resolveLeaf v s = .ok r) :
    r.isTimeless := by
  unfold resolveLeaf at h
  split at h
  -- what is given is no int, no date and no bytes of any kind
  all_goals first | (cases h; rfl) | (cases hv; done) | skip
  case h_23 => obtain ⟨i, t, rfl⟩ := resolveSymbol_enum h; rfl
  case h_27 => obtain ⟨-, -, ⟨⟩⟩ := Outcome.bind_eq_ok.mp h
  case h_29 => split at h <;> cases h; rfl
  case h_37 => cases h

theorem leaf_ends {good : Value → Prop} {v : Value} (hv : v.isJsonLeaf) (hgood : ∀ r, good r) :
    Ends allowed (isTimeless ·) good (resolveLeaf v s) (resolveLeaf v s) := by
  cases h : resolveLeaf v s with
  | error stop => exact .stopped stop
  | ok r => exact .ok (isTimeless_resolveLeaf hv h) (hgood r)

/-- An int and its long resolve to the same, but for dates and times of day. -/
theorem int_ends (n : Int32) (hs : s.only allowed) :
    Ends allowed (isTimeless ·)
      (fun r => (Value.int n).checkNarrowing r = (Value.long n.toInt64).checkNarrowing r)
      (resolveLeaf (.int n) s) (resolveLeaf (.long n.toInt64) s) := by
  cases s with
  | int =>
    have hn : n.toInt64.toInt32 = n := Int32.toInt32_toInt64 n
    simp only [resolveLeaf, hn]
    refine .ok rfl ?_
    exact (if_pos rfl).symm
  | long => exact .ok rfl rfl
  | float | double =>
    simp only [resolveLeaf, Int32.toInt_toInt64]
    exact .ok rfl rfl
  | intTime t =>
    refine .refused t (Schema.allowed_of_only hs) fun r hr => ?_
    cases hr
    simp [isTimeless]
  | longTime t => exact .ok rfl rfl
  | decimal base precision scale => exact checked_fail_ends _ _
  | _ => exact .error _ _

end Leaf

/-! ## Values with parts -/

/-- The check comes to the same for both values. -/
def SameChecks (v w r : Value) : Prop := v.checkNarrowing r = w.checkNarrowing r

/-- Values that have no parts for the schema to ask for have no form under it. -/
theorem resolveLeaf_parts_ends {allowed : Kind → Bool} {timeless good : Value → Prop} {s : Schema}
    {v w : Value} (hv : v.kind = .array ∨ v.kind = .map ∨ v.kind = .record)
    (hw : w.kind = .array ∨ w.kind = .map ∨ w.kind = .record) :
    Ends allowed timeless good (resolveLeaf v s) (resolveLeaf w s) := by
  have hfails : ∀ {u : Value}, (u.kind = .array ∨ u.kind = .map ∨ u.kind = .record) →
      ∃ e, resolveLeaf u s = s.checkBase >>= fun _ => .fail e := by
    intro u hu
    cases u with
    | array | map | record => cases s <;> exact ⟨_, rfl⟩
    | _ => rcases hu with hu | hu | hu <;> cases hu
  obtain ⟨e, hv⟩ := hfails hv
  obtain ⟨e', hw⟩ := hfails hw
  rw [hv, hw]
  exact checked_fail_ends e e'

end Value

/-- A fallback that gives nothing with a date or time of day in it. -/
def Fallback.Timeless (allowed : Kind → Bool) (f : Fallback) : Prop :=
  ∀ (names : Names) (ns : Namespace) (field : Field Schema) (r : Value), names.Only allowed →
    field.schema.only allowed → f names ns field = .ok r → r.isTimeless

namespace Value

section Parts

variable {allowed : Kind → Bool} {fallback : Fallback} {names : Names} {ns : Namespace}

theorem checkItems_congr {ps : List (Value × Value)} {rs : List Value}
    (h : List.Forall₂ (fun p r => SameChecks p.1 p.2 r) ps rs) :
    checkItems (ps.map (·.1)) rs = checkItems (ps.map (·.2)) rs := by
  induction h with
  | nil => rfl
  | cons hpr _ ih =>
    rw [List.map_cons, List.map_cons, checkItems, checkItems, ih, hpr]

theorem resolveItems_ends {s : Schema} {ps : List (Value × Value)}
    (h : ∀ p ∈ ps, Ends allowed (isTimeless ·) (SameChecks p.1 p.2) (p.1.fit fallback names ns s)
      (p.2.fit fallback names ns s)) :
    Ends allowed (isTimeless ·) (SameChecks (.array (ps.map (·.1))) (.array (ps.map (·.2))))
      (resolveItems names ns s (fittings fallback (ps.map (·.1))))
      (resolveItems names ns s (fittings fallback (ps.map (·.2)))) := by
  simp only [resolveItems, fittings_eq_map, List.map_map, List.mapM_map]
  refine (Ends.mapM h).bind (fun rs hrs hgood => ?_) fun rs r hr ht => ?_
  · exact .ok (by simpa only [isTimeless] using areTimeless_iff.mpr hrs) (checkItems_congr hgood)
  · cases hr
    exact areTimeless_iff.mp (by simpa only [isTimeless] using ht)

theorem toByte_ends {allowed : Kind → Bool} (v : Value) :
    Ends allowed (fun _ => True) (fun _ => True) (toByte v) (toByte v) := by
  cases toByte v with
  | error stop => exact .stopped stop
  | ok b => exact .ok trivial trivial

theorem resolveBytes_ends {ps : List (Value × Value)}
    (h : ∀ p ∈ ps, Ends allowed (isTimeless ·) (SameChecks p.1 p.2) (p.1.fit fallback [] none .int)
      (p.2.fit fallback [] none .int)) :
    Ends allowed (isTimeless ·) (SameChecks (.array (ps.map (·.1))) (.array (ps.map (·.2))))
      (resolveBytes (fittings fallback (ps.map (·.1))))
      (resolveBytes (fittings fallback (ps.map (·.2)))) := by
  have hback (v : Value) (b : UInt8) (hv : toByte v = .ok b) (_ : True) : v.isTimeless := by
    cases v <;> first | rfl | cases hv
  have hsteps (p : Value × Value) (hp : p ∈ ps) :
      Ends allowed (fun _ => True) (fun _ => True)
        (do toByte (← p.1.fit fallback [] none .int))
        (do toByte (← p.2.fit fallback [] none .int)) :=
    (h p hp).bind (fun v _ _ => toByte_ends v) hback
  simp only [resolveBytes, fittings_eq_map, List.map_map, List.mapM_map]
  refine (Ends.mapM hsteps).bind (fun b _ _ => .ok rfl rfl) fun b r _ _ => ?_
  exact fun _ _ => trivial

/-- The values have the same entries, and those of one name end as twins do. -/
structure EntriesEnd (allowed : Kind → Bool) (fallback : Fallback) (names : Names) (ns : Namespace)
    (v w : Value) : Prop where
  isSome : ∀ name, ( entry? name v).isSome = ( entry? name w).isSome
  ends : ∀ {name a b} {s : Schema}, entry? name v = some a → entry? name w = some b →
    s.only allowed → Ends allowed (isTimeless ·) (SameChecks a b) (a.fit fallback names ns s)
      (b.fit fallback names ns s)

theorem checkEntries_congr {v w : Value} {rs : List (String × Value)}
    (hsome : ∀ name, ( entry? name v).isSome = ( entry? name w).isSome)
    (h : ∀ p ∈ rs, ∀ a b, entry? p.1 v = some a → entry? p.1 w = some b → SameChecks a b p.2) :
    checkEntries v rs = checkEntries w rs := by
  induction rs with
  | nil => rfl
  | cons p rs ih =>
    obtain ⟨name, r⟩ := p
    have hentry := h (name, r) List.mem_cons_self
    have hname := hsome name
    rw [checkEntries, checkEntries, ih fun p hp => h p (List.mem_cons_of_mem _ hp)]
    cases hv : entry? name v with
    | none =>
      rw [hv, Option.isSome_none, Eq.comm, Option.isSome_eq_false_iff, Option.isNone_iff_eq_none]
        at hname
      rw [hname]
    | some a =>
      rw [hv, Option.isSome_some, Eq.comm, Option.isSome_iff_exists] at hname
      obtain ⟨b, hw⟩ := hname
      have hcheck : a.checkNarrowing r = b.checkNarrowing r := hentry a b hv hw
      simp only [hw, hcheck]

/-- What a field of a record becomes, given the entries there are. -/
def resolveField (fallback : Fallback) (names : Names) (ns : Namespace)
    (entries : List (String × Fitting)) (field : Field Schema) :
    Outcome Mismatch (String × Value) := do
  match entries.lookup field.name with
  | some entry => return (field.name, ← entry names ns field.schema)
  | none => return (field.name, ← fallback names ns field)

theorem resolveFields_eq (fallback : Fallback) (names : Names) (ns : Namespace)
    (fields : List (Field Schema)) (entries : List (String × Fitting)) :
    resolveFields fallback names ns fields entries = do
      return .record (← fields.mapM (resolveField fallback names ns entries)) := rfl

/-- Records of twins' entries, with the defaults of the fields that neither of them has. -/
theorem resolveFields_ends {v w : Value} {as bs : List (String × Fitting)}
    {fields : List (Field Schema)} (h : EntriesEnd allowed fallback names ns v w)
    (hfallback : fallback.Timeless allowed) (hnames : names.Only allowed)
    (hfields : ∀ f ∈ fields, f.schema.only allowed)
    (has : ∀ name, as.lookup name = ( entry? name v).map (fit fallback))
    (hbs : ∀ name, bs.lookup name = ( entry? name w).map (fit fallback))
    (hv : ∀ rs, v.checkNarrowing (.record rs) = checkEntries v rs)
    (hw : ∀ rs, w.checkNarrowing (.record rs) = checkEntries w rs) :
    Ends allowed (isTimeless ·) (SameChecks v w) (resolveFields fallback names ns fields as)
      (resolveFields fallback names ns fields bs) := by
  have hsteps : ∀ f ∈ fields, Ends allowed (fun p : String × Value => p.2.isTimeless)
      (fun p => ∀ a b, entry? p.1 v = some a → entry? p.1 w = some b → SameChecks a b p.2)
      (resolveField fallback names ns as f) (resolveField fallback names ns bs f) := by
    intro f hf
    have hsome := h.isSome f.name
    rw [resolveField, resolveField, has, hbs]
    cases ha : entry? f.name v with
    | none =>
      rw [ha, Option.isSome_none, Eq.comm, Option.isSome_eq_false_iff, Option.isNone_iff_eq_none]
        at hsome
      rw [hsome]
      cases hr : fallback names ns f with
      | error stop => simp only [Option.map_none]; exact .stopped stop
      | ok r =>
        simp only [Option.map_none]
        refine .ok (hfallback _ _ _ _ hnames (hfields f hf) hr) fun a b ha' _ => ?_
        cases ha.symm.trans ha'
    | some a =>
      rw [ha, Option.isSome_some, Eq.comm, Option.isSome_iff_exists] at hsome
      obtain ⟨b, hb⟩ := hsome
      rw [hb]
      refine (h.ends ha hb (hfields f hf)).bind (fun r ht hgood => ?_) fun r p hp ht => ?_
      · refine .ok ht fun a' b' ha' hb' => ?_
        cases ha.symm.trans ha'
        cases hb.symm.trans hb'
        exact hgood
      · cases hp
        exact ht
  rw [resolveFields_eq, resolveFields_eq]
  refine (Ends.mapM hsteps).bind (fun rs hrs hgood => ?_) fun rs r hr ht => ?_
  · refine .ok (by simpa only [isTimeless] using entriesTimeless_iff.mpr hrs) ?_
    show v.checkNarrowing (.record rs) = w.checkNarrowing (.record rs)
    rw [hv, hw]
    refine checkEntries_congr h.isSome fun p hp => ?_
    obtain ⟨i, hi, rfl⟩ := List.mem_iff_getElem.mp hp
    exact hgood.get (by rwa [hgood.length_eq]) hi
  · cases hr
    exact entriesTimeless_iff.mp (by simpa only [isTimeless] using ht)

end Parts

/-! ## All twins -/

section Twins

variable {allowed : Kind → Bool} {fallback : Fallback} {names : Names} {v w : Value}
  (hunion : allowed .union = false) (hmap : allowed .map = false) (hint : allowed .int = true)

include hunion in
/-- A value meets a schema that is no union as what the schema stands for. -/
theorem fit_ends_of_plain {good : Value → Prop} (hv : v.isUnion = false) (hw : w.isUnion = false)
    (hplain : ∀ ns s, s.only allowed → Ends allowed (isTimeless ·) good
      (plain fallback v 0 names ns s) (plain fallback w 0 names ns s))
    (hnames : names.Only allowed) {ns : Namespace} {s : Schema} (hs : s.only allowed) :
    Ends allowed (isTimeless ·) good (v.fit fallback names ns s) (w.fit fallback names ns s) := by
  cases s with
  | union branches =>
    have hallowed := Schema.allowed_of_only hs
    rw [Schema.kind, hunion] at hallowed
    cases hallowed
  | ref name =>
    show Ends _ _ _ (meetDirect _ 0 names ns (.ref name)) (meetDirect _ 0 names ns (.ref name))
    simp only [meetDirect, plain_of_not_union fallback hv 2 0, plain_of_not_union fallback hw 2 0]
    split
    · exact hplain _ _ (hnames.find? ‹_›)
    · exact .error _ _
  | _ =>
    have h := hplain ns _ hs
    rw [plain_of_not_union fallback hv 0 1, plain_of_not_union fallback hw 0 1] at h
    exact h

include hunion hmap hint in
/-- Twins resolve to the same and pass the same checks, or fail alike, unless a date or time of day
is in the way. -/
theorem Twin.ends (hfallback : fallback.Timeless allowed) (h : Twin v w) :
    ∀ {names : Names} (ns : Namespace) {s : Schema}, names.Only allowed → s.only allowed →
      Ends allowed (isTimeless ·) (SameChecks v w) (v.fit fallback names ns s)
        (w.fit fallback names ns s) := by
  induction h with
  | @leaf v hv =>
    intro names ns s hnames hs
    have hunion' := (leaf hv).isUnion_left
    refine fit_ends_of_plain hunion hunion' hunion' (fun ns s _ => ?_) hnames hs
    have hplain : plain fallback v 0 names ns s = resolveLeaf v s := by
      cases v <;> first | rfl | cases hv
    rw [hplain]
    exact leaf_ends hv fun r => rfl
  | int n =>
    intro names ns s hnames hs
    exact fit_ends_of_plain hunion rfl rfl (fun _ _ hs => int_ends n hs) hnames hs
  | @array ps hps ih =>
    intro names ns s hnames hs
    refine fit_ends_of_plain hunion rfl rfl (fun ns s hs => ?_) hnames hs
    have hleaf : Ends allowed (isTimeless ·)
        (SameChecks (.array (ps.map (·.1))) (.array (ps.map (·.2))))
        (resolveLeaf (.array (ps.map (·.1))) s) (resolveLeaf (.array (ps.map (·.2))) s) :=
      resolveLeaf_parts_ends (.inl rfl) (.inl rfl)
    cases s with
    | array items =>
      rw [Schema.only, Bool.and_eq_true] at hs
      exact resolveItems_ends fun p hp => ih p hp _ hnames hs.2
    | bytes => exact resolveBytes_ends fun p hp => ih p hp _ (Names.only_nil allowed) hint
    | _ => exact hleaf
  | @entries v es fs hv hsome hentries ih =>
    intro names ns s hnames hs
    refine fit_ends_of_plain hunion (entries hv hsome hentries).isUnion_left rfl
      (fun ns s hs => ?_) hnames hs
    have hentry (name : String) : entry? name v = es.lookup name := by
      rcases hv with rfl | ⟨rfl, -⟩ <;> rfl
    have hend : EntriesEnd allowed fallback names ns v (.map fs) :=
      ⟨fun name => (hentry name).symm ▸ hsome name,
        fun ha hb hs => ih _ _ _ (hentry _ ▸ ha) hb _ hnames hs⟩
    have hleaf : Ends allowed (isTimeless ·) (SameChecks v (.map fs)) (resolveLeaf v s)
        (resolveLeaf (.map fs) s) := by
      refine resolveLeaf_parts_ends ?_ (.inr (.inl rfl))
      rcases hv with rfl | ⟨rfl, -⟩
      · exact .inr (.inl rfl)
      · exact .inr (.inr rfl)
    cases s with
    | map values =>
      have hallowed := Schema.allowed_of_only hs
      rw [Schema.kind, hmap] at hallowed
      cases hallowed
    | record name fields =>
      rw [Schema.only, Bool.and_eq_true] at hs
      have hfields := Schema.fieldsOnly_iff.mp hs.2
      have hfs (name : String) : (entryFittings fallback fs).lookup name =
          (fs.lookup name).map (fit fallback) := by
        rw [entryFittings_eq_map, lookup_map_snd]
      rcases hv with rfl | ⟨rfl, hkeys⟩
      · refine resolveFields_ends hend hfallback hnames hfields (fun name => ?_) hfs
          (fun _ => rfl) fun _ => rfl
        rw [entryFittings_eq_map, lookup_map_snd]
        rfl
      · refine resolveFields_ends hend hfallback hnames hfields (fun name => ?_) hfs
          (fun _ => rfl) fun _ => rfl
        have hperm := (List.reverse_perm (entryFittings fallback es)).symm
        rw [← lookup_perm hperm (by rwa [map_fst_entryFittings]), entryFittings_eq_map,
          lookup_map_snd]
        rfl
    | _ =>
      rcases hv with rfl | ⟨rfl, -⟩ <;> exact hleaf

end Twins

end Value

/-! ## Defaults -/

namespace Fallback

variable {allowed : Kind → Bool}

/-- The default of an enumeration becomes one of its symbols. -/
theorem enum_of_ofFallback {inner : Fallback} {names : Names} {ns : Namespace}
    {f : Field Schema} {v : Value} (h : ofFallback inner names ns f = .ok v)
    (henum : f.schema.kind = .enum) : ∃ i t, v = .enum i t := by
  obtain ⟨name, aliases, default, schema⟩ := f
  cases schema with
  | enum name symbols fallbackSymbol =>
    cases default with
    | none => cases h
    | some json =>
      obtain ⟨w, hw, h⟩ := Outcome.bind_eq_ok.mp h
      split at hw
      · obtain ⟨i, t, rfl⟩ := Value.resolveSymbol_enum hw
        exact Value.resolveSymbol_enum h
      · cases hw
  | _ => cases henum

/-- Defaults are JSON values, and these have no dates and no times of day. -/
theorem ofDepth_timeless (hunion : allowed .union = false) (hmap : allowed .map = false)
    (hint : allowed .int = true) (depth : Nat) : (ofDepth depth).Timeless allowed := by
  induction depth with
  | zero => intro names ns field r _ _ h; cases h
  | succ depth ih =>
    intro names ns field r hnames hs h
    have hkind : field.schema.kind ≠ .union := by
      intro hkind
      have hallowed := Schema.allowed_of_only hs
      rw [hkind, hunion] at hallowed
      cases hallowed
    by_cases henum : field.schema.kind = .enum
    · obtain ⟨i, t, rfl⟩ := enum_of_ofFallback h henum
      rfl
    · cases hdefault : field.default with
      | none => simp only [ofDepth, ofFallback, hdefault] at h; cases h
      | some json =>
        have hends := (Value.Twin.ofJson json).ends hunion hmap hint ih ns hnames hs
        rw [Landing.fit_of_fallback h hdefault hkind henum] at hends
        cases hends with
        | ok ht _ => exact ht

end Fallback
end RecordTape
