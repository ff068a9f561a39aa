import RecordTape.Proofs.Schema.Scoped
import RecordTape.Proofs.Value.Resolved
import RecordTape.Proofs.Value.Transparent
/-!
# Names in resolution

Under a scoped schema that binds, resolution finds whatever it looks up. So it does the same in
every namespace that a part can stand in, and among any names besides those that were bound; a value
is never refused for a name, and no branch that is searched is in the way (`fit_steady`). The lemma
takes any description `P` of how resolution may stop that admits the other mismatches and the faults
of decimals.
-/

namespace RecordTape

open Schema (Settled)

/-- The mismatch is that a name stands for nothing. -/
def Mismatch.aboutName : Mismatch → Bool
  | .unresolved _ => true
  | _ => false

section Walks

variable {ρ : Type} (whole : Schema) (names : Names) (good : ρ → Prop)

/-- A walk over schemas does the same at a settled schema wherever this stands and whatever else is
known, and what it comes to is good. -/
def SteadyAt (f : Names → Namespace → Schema → ρ) (s : Schema) : Prop :=
  ∀ {bare : Bool} {ns : Namespace} {names' : Names}, Settled whole names bare s → Scope bare ns →
    names'.Extends names → f names' ns s = f names none s ∧ good (f names none s)

/-- A walk that is steady at all schemas. -/
def Steady (f : Names → Namespace → Schema → ρ) : Prop := ∀ s, SteadyAt whole names good f s

variable {whole names good}

/-- Wherever the schema stands and whatever is known, a steady walk does the same. -/
theorem SteadyAt.between {f : Names → Namespace → Schema → ρ} {s : Schema} {bare : Bool}
    {ns₁ ns₂ : Namespace} {names₁ names₂ : Names} (h : SteadyAt whole names good f s)
    (hs : Settled whole names bare s) (hscope₁ : Scope bare ns₁) (hmore₁ : names₁.Extends names)
    (hscope₂ : Scope bare ns₂) (hmore₂ : names₂.Extends names) :
    f names₁ ns₁ s = f names₂ ns₂ s ∧ good (f names₂ ns₂ s) := by
  obtain ⟨heq₁, -⟩ := h hs hscope₁ hmore₁
  obtain ⟨heq₂, hgood⟩ := h hs hscope₂ hmore₂
  exact ⟨heq₁.trans heq₂.symm, heq₂ ▸ hgood⟩

end Walks

/-- A description of the ways in which resolution against the parts of a schema may stop. -/
structure Allows (whole : Schema) (P : Stop Mismatch → Prop) : Prop where
  mismatch : ∀ e : Mismatch, e.aboutName = false → P (.error e)
  overflow : ∀ (base : DecimalBase) (precision scale length : Nat),
    (Schema.decimal base precision scale).Within whole → int32Bound ≤ 8 * (length : Int) →
    P (.fault (.bitLengthOverflow length))

/-- The fallback does the same for a field of a settled record wherever this stands and whatever
else is known, and stops only as described. -/
def Fallback.Steady (whole : Schema) (names : Names) (P : Stop Mismatch → Prop) (f : Fallback) :
    Prop :=
  ∀ {bare : Bool} {ns : Namespace} {names' : Names} {name : Name} {fields : List (Field Schema)},
    (Schema.record name fields).Within whole → ∀ field ∈ fields,
    Settled whole names bare field.schema → Scope bare ns → names'.Extends names →
      f names' ns field = f names none field ∧ Outcome.Stops P (f names none field)

namespace Decimal

/-- The number of bits overflows for long decimals only. -/
theorem precisionOf_stop {length : Nat} {stop : Stop Mismatch}
    (h : precisionOf length = .error stop) :
    stop = .error (.lengthRange length) ∨
      stop = .fault (.bitLengthOverflow length) ∧ int32Bound ≤ 8 * (length : Int) := by
  unfold precisionOf at h
  split at h
  · cases h
    exact .inl rfl
  · split at h
    · cases h
      exact .inr ⟨rfl, ‹_›⟩
    · split at h
      · cases h
      · split at h <;> cases h

end Decimal

namespace Value

section Leaf

variable {whole : Schema} {P : Stop Mismatch → Prop} (hP : Allows whole P)
include hP

theorem precisionOf_stops {base : DecimalBase} {precision scale : Nat}
    (hin : (Schema.decimal base precision scale).Within whole) (length : Nat) :
    Outcome.Stops P (Decimal.precisionOf length) := by
  intro stop h
  rcases Decimal.precisionOf_stop h with rfl | ⟨rfl, hlong⟩
  · exact hP.mismatch _ rfl
  · exact hP.overflow base precision scale length hin hlong

theorem checkBase_stops {base : DecimalBase} {precision scale : Nat}
    (hin : (Schema.decimal base precision scale).Within whole) :
    Outcome.Stops P (Decimal.checkBase precision base) := by
  cases base with
  | bytes => exact .ok ()
  | fixed name size =>
    refine (precisionOf_stops hP hin size).bind fun holds _ => ?_
    split
    · exact .error (hP.mismatch _ rfl)
    · exact .ok _

theorem resolveDecimal_stops {base : DecimalBase} {precision scale : Nat}
    (hin : (Schema.decimal base precision scale).Within whole) (b : Bytes) :
    Outcome.Stops P (resolveDecimal base precision b) := by
  refine (checkBase_stops hP hin).bind fun _ _ => ?_
  refine .bind ?_ fun _ _ => .ok _
  refine (precisionOf_stops hP hin b.length).bind fun holds _ => ?_
  split
  · exact .error (hP.mismatch _ rfl)
  · exact .ok _

theorem resolveSymbol_stops (symbols : List String) (default : Option String) (t : String) :
    Outcome.Stops P (resolveSymbol symbols default t) := by
  unfold resolveSymbol
  split
  · exact .ok _
  · split
    · exact .ok _
    · exact .error (hP.mismatch _ rfl)

theorem mismatch_stops {s : Schema} (hs : s.kind ≠ .ref) (got : Kind) :
    P (.error (mismatch got s)) := by
  refine hP.mismatch _ ?_
  cases s <;> first | rfl | exact absurd rfl hs

/-- A value without parts stops at a schema that is no reference as any other does. -/
theorem resolveLeaf_stops {s : Schema} (hin : s.kind = .decimal → s.Within whole)
    (hs : s.kind ≠ .ref) (v : Value) : Outcome.Stops P (resolveLeaf v s) := by
  unfold resolveLeaf
  split
  all_goals try exact .ok _
  case h_18 | h_19 =>
    unfold resolveText
    split
    · exact .ok _
    · exact .error (hP.mismatch _ rfl)
  case h_20 | h_29 | h_36 =>
    split
    · exact .ok _
    · exact .error (hP.mismatch _ rfl)
  case h_22 | h_23 => exact resolveSymbol_stops hP _ _ _
  case h_24 | h_25 | h_26 => exact resolveDecimal_stops hP (hin rfl) _
  case h_27 => exact (checkBase_stops hP (hin rfl)).bind fun _ _ => .error (hP.mismatch _ rfl)
  case h_31 | h_34 =>
    split
    · exact .ok _
    · exact .error (hP.mismatch _ rfl)
  case h_37 => exact .error (mismatch_stops hP hs _)

end Leaf

/-! ## References and unions -/

section Meeting

variable {whole : Schema} {names : Names} {P : Stop Mismatch → Prop} (hwhole : whole.Binds names)
  (hP : Allows whole P) {plain : Nat → Fitting}
  (hplain : ∀ layers s, s.kind ≠ .ref → SteadyAt whole names (Outcome.Stops P) (plain layers) s)

include hwhole hplain

/-- A reference leads to its definition, and this is no reference. -/
theorem meetDirect_steady (layers : Nat) :
    Steady whole names (Outcome.Stops P) (meetDirect plain layers) := by
  intro s bare ns names' hs hscope hmore
  cases s with
  | ref name =>
    obtain ⟨target, htarget⟩ := hs.find?
    obtain ⟨hdefined, hsettled⟩ := Settled.of_find? hwhole htarget
    have htarget' := hmore name target htarget
    simp only [meetDirect, Name.qualify_of_regular hscope hs.isScoped,
      Name.qualify_of_regular (.none bare) hs.isScoped, htarget, htarget']
    have hkind := (Schema.kind_of_definedName hdefined).1
    exact SteadyAt.between (hplain (layers + 2) target hkind) hsettled (Scope.named name) hmore
      (Scope.named name) (.refl names)
  | _ => exact hplain (layers + 1) _ (by rintro ⟨⟩) hs hscope hmore

/-- A branch is tried in its own namespace if it has one. -/
theorem tried_steady {bare : Bool} {ns : Namespace} {names' : Names} {s : Schema}
    (hs : Settled whole names bare s) (hscope : Scope bare ns) (hmore : names'.Extends names) :
    meetDirect plain 1 names' (s.ns <|> ns) s = meetDirect plain 1 names none s := by
  cases hns : s.ns with
  | none => exact (meetDirect_steady hwhole hplain 1 s hs hscope hmore).1
  | some own =>
    have hsome : s.ns.isSome := by rw [hns]; rfl
    exact (meetDirect_steady hwhole hplain 1 s (hs.of_ns hsome) (by rintro ⟨⟩) hmore).1

include hP

theorem searchBranch_steady {bare : Bool} {ns : Namespace} {branches : List Schema}
    (hs : ∀ s ∈ branches, Settled whole names bare s) (hscope : Scope bare ns)
    {names₁ names₂ : Names} (i : Nat) (h₁ : names₁.Extends names) (h₂ : names₂.Extends names) :
    searchBranch plain ns names₁ i branches = searchBranch plain none names₂ i branches ∧
      Outcome.Stops P (searchBranch plain none names₂ i branches) := by
  induction branches generalizing names₁ names₂ i with
  | nil => exact ⟨rfl, .error (hP.mismatch _ rfl)⟩
  | cons s rest ih =>
    have hfirst := hs s List.mem_cons_self
    obtain ⟨hbind₁, hmore₁⟩ := hfirst.bind_eq hscope h₁
    obtain ⟨hbind₂, hmore₂⟩ := hfirst.bind_eq (.none bare) h₂
    have htried₁ := tried_steady hwhole hplain hfirst hscope hmore₁
    have htried₂ := tried_steady hwhole hplain hfirst (.none bare) hmore₂
    have hstops := (meetDirect_steady hwhole hplain 1 s hfirst (.none bare) (.refl names)).2
    rw [searchBranch, searchBranch, hbind₁, hbind₂]
    simp only [htried₁, htried₂]
    cases hmeet : meetDirect plain 1 names none s with
    | ok v => exact ⟨rfl, .ok _⟩
    | error stop =>
      cases stop with
      | fault f => exact ⟨rfl, .error (hstops _ hmeet)⟩
      | error e => exact ih (fun t ht => hs t (List.mem_cons_of_mem _ ht)) (i + 1) hmore₁ hmore₂

theorem chooseBranch_steady {bare : Bool} {ns : Namespace} {names' : Names}
    {branches : List Schema} (kind : Kind) (hs : Settled whole names bare (.union branches))
    (hscope : Scope bare ns) (hmore : names'.Extends names) :
    chooseBranch kind plain names' ns branches = chooseBranch kind plain names none branches ∧
      Outcome.Stops P (chooseBranch kind plain names none branches) := by
  unfold chooseBranch
  split
  · exact ⟨rfl, .ok _⟩
  · exact searchBranch_steady hwhole hP hplain (fun s hb => hs.branch hb) hscope 0 hmore
      (.refl names)

theorem meet_steady (kind : Kind) : Steady whole names (Outcome.Stops P) (meet kind plain) := by
  intro s bare ns names' hs hscope hmore
  cases s with
  | union branches =>
    obtain ⟨hchoose, hstops⟩ := chooseBranch_steady hwhole hP hplain kind hs hscope hmore
    simp only [meet, hchoose]
    cases hchosen : chooseBranch kind plain names none branches with
    | error stop => exact ⟨rfl, .error (hstops _ hchosen)⟩
    | ok p =>
      obtain ⟨i, branch⟩ := p
      have hbranch := hs.branch (List.mem_of_getElem? (chooseBranch_ok hchosen))
      obtain ⟨hmeet, hmeets⟩ := meetDirect_steady hwhole hplain 1 branch hbranch hscope hmore
      show (meetDirect plain 1 names' ns branch >>= _) =
          (meetDirect plain 1 names none branch >>= _) ∧
        Outcome.Stops P (meetDirect plain 1 names none branch >>= _)
      rw [hmeet]
      exact ⟨rfl, hmeets.bind fun _ _ => .ok _⟩
  | _ => exact meetDirect_steady hwhole hplain 0 _ hs hscope hmore

end Meeting

/-! ## Values with parts -/

section Parts

variable {whole : Schema} {names names' : Names} {P : Stop Mismatch → Prop} {bare : Bool}
  {ns : Namespace} {s : Schema}

theorem resolveItems_steady {items : List Fitting}
    (hitems : ∀ f ∈ items, Steady whole names (Outcome.Stops P) f) (hs : Settled whole names bare s)
    (hscope : Scope bare ns) (hmore : names'.Extends names) :
    resolveItems names' ns s items = resolveItems names none s items ∧
      Outcome.Stops P (resolveItems names none s items) := by
  have heq : items.mapM (fun item => item names' ns s) = items.mapM fun item => item names none s :=
    Outcome.mapM_congr fun f hf => (hitems f hf s hs hscope hmore).1
  rw [resolveItems, resolveItems, heq]
  refine ⟨rfl, .bind (.mapM fun f hf => ?_) fun _ _ => .ok _⟩
  exact (hitems f hf s hs hscope hmore).2

theorem resolveEntries_steady {entries : List (String × Fitting)}
    (hentries : ∀ p ∈ entries, Steady whole names (Outcome.Stops P) p.2)
    (hs : Settled whole names bare s) (hscope : Scope bare ns) (hmore : names'.Extends names) :
    resolveEntries names' ns s entries = resolveEntries names none s entries ∧
      Outcome.Stops P (resolveEntries names none s entries) := by
  unfold resolveEntries
  refine ⟨congrArg (· >>= _) (Outcome.mapM_congr fun p hp => ?_),
    .bind (.mapM fun p hp => ?_) fun _ _ => .ok _⟩
  · simp only [(hentries p hp s hs hscope hmore).1]
  · exact (hentries p hp s hs hscope hmore).2.bind fun _ _ => .ok _

theorem resolveFields_steady {fallback : Fallback} {entries : List (String × Fitting)} {name : Name}
    {fields : List (Field Schema)} (hfallback : fallback.Steady whole names P)
    (hentries : ∀ p ∈ entries, Steady whole names (Outcome.Stops P) p.2)
    (hs : Settled whole names bare (.record name fields)) (hscope : Scope name.ns.isNone ns)
    (hmore : names'.Extends names) :
    resolveFields fallback names' ns fields entries =
        resolveFields fallback names none fields entries ∧
      Outcome.Stops P (resolveFields fallback names none fields entries) := by
  have hentry {f : Field Schema} {entry : Fitting} (hf : f ∈ fields)
      (hlookup : entries.lookup f.name = some entry) :
      entry names' ns f.schema = entry names none f.schema ∧
        Outcome.Stops P (entry names none f.schema) := by
    obtain ⟨l₁, l₂, rfl, -⟩ := List.lookup_eq_some_iff.mp hlookup
    exact hentries (f.name, entry) (by simp) f.schema (hs.field hf) hscope hmore
  have hmissing {f : Field Schema} (hf : f ∈ fields) :=
    hfallback hs.within f hf (hs.field hf) hscope hmore
  unfold resolveFields
  refine ⟨congrArg (· >>= _) (Outcome.mapM_congr fun f hf => ?_),
    .bind (.mapM fun f hf => ?_) fun _ _ => .ok _⟩
  · cases hlookup : entries.lookup f.name with
    | some entry => simp only [(hentry hf hlookup).1]
    | none => simp only [(hmissing hf).1]
  · cases hlookup : entries.lookup f.name with
    | some entry => exact (hentry hf hlookup).2.bind fun _ _ => .ok _
    | none => exact (hmissing hf).2.bind fun _ _ => .ok _

end Parts

/-! ## All values -/

section All

variable {whole : Schema} {names : Names} {P : Stop Mismatch → Prop} {fallback : Fallback}

/-- An item that is to become a byte is an int first, for which no name counts. -/
theorem plain_int_stops (hP : Allows whole P) (v : Value) (layers : Nat) (names : Names)
    (ns : Namespace) : Outcome.Stops P (plain fallback v layers names ns .int) := by
  have hleaf (v : Value) : Outcome.Stops P (resolveLeaf v .int) :=
    resolveLeaf_stops hP (by rintro ⟨⟩) (by rintro ⟨⟩) v
  cases v with
  | union i v =>
    cases layers with
    | zero => exact hleaf _
    | succ layers => exact plain_int_stops hP v layers names ns
  | array items => exact hleaf (.array items)
  | map entries => exact hleaf (.map entries)
  | record entries => exact hleaf (.record entries)
  | _ => exact hleaf _

theorem resolveBytes_stops (hP : Allows whole P) (items : List Value) :
    Outcome.Stops P (resolveBytes (fittings fallback items)) := by
  rw [fittings_eq_map]
  refine .bind (.mapM fun f hf => ?_) fun _ _ => .ok _
  obtain ⟨v, -, rfl⟩ := List.mem_map.mp hf
  refine .bind (plain_int_stops hP v 1 [] none) fun w _ => ?_
  unfold toByte
  split
  · split
    · exact .ok _
    · exact .error (hP.mismatch _ rfl)
  · exact .error (hP.mismatch _ rfl)

mutual

theorem plain_steady (hwhole : whole.Binds names) (hP : Allows whole P)
    (hfallback : fallback.Steady whole names P) (v : Value) (layers : Nat) (s : Schema)
    (hkind : s.kind ≠ .ref) :
    SteadyAt whole names (Outcome.Stops P) (plain fallback v layers) s := by
  intro bare ns names' hs hscope hmore
  have hleaf := resolveLeaf_stops hP (fun _ => hs.within) hkind
  cases v with
  | union i v =>
    cases layers with
    | zero => exact ⟨rfl, hleaf _⟩
    | succ layers => exact plain_steady hwhole hP hfallback v layers s hkind hs hscope hmore
  | array items =>
    have hitems := fittings_steady hwhole hP hfallback items
    cases s with
    | array schema => exact resolveItems_steady hitems hs.items hscope hmore
    | bytes => exact ⟨rfl, resolveBytes_stops hP items⟩
    | _ => exact ⟨rfl, hleaf (.array items)⟩
  | map entries =>
    have hentries := entryFittings_steady hwhole hP hfallback entries
    cases s with
    | map schema => exact resolveEntries_steady hentries hs.values hscope hmore
    | record name fields =>
      exact resolveFields_steady hfallback hentries hs (hscope.kept hs.record.1) hmore
    | _ => exact ⟨rfl, hleaf (.map entries)⟩
  | record entries =>
    have hentries := entryFittings_steady hwhole hP hfallback entries
    cases s with
    | record name fields =>
      exact resolveFields_steady hfallback (fun p hp => hentries p (List.mem_reverse.mp hp)) hs
        (hscope.kept hs.record.1) hmore
    | _ => exact ⟨rfl, hleaf (.record entries)⟩
  | _ => exact ⟨rfl, hleaf _⟩

theorem fittings_steady (hwhole : whole.Binds names) (hP : Allows whole P)
    (hfallback : fallback.Steady whole names P) (items : List Value) :
    ∀ f ∈ fittings fallback items, Steady whole names (Outcome.Stops P) f := by
  cases items with
  | nil => intro f hf; cases hf
  | cons v rest =>
    intro f hf
    rcases List.mem_cons.mp hf with rfl | hf
    · exact meet_steady hwhole hP (plain_steady hwhole hP hfallback v) _
    · exact fittings_steady hwhole hP hfallback rest f hf

theorem entryFittings_steady (hwhole : whole.Binds names) (hP : Allows whole P)
    (hfallback : fallback.Steady whole names P) (entries : List (String × Value)) :
    ∀ p ∈ entryFittings fallback entries, Steady whole names (Outcome.Stops P) p.2 := by
  cases entries with
  | nil => intro p hp; cases hp
  | cons p rest =>
    obtain ⟨k, v⟩ := p
    intro p hp
    rcases List.mem_cons.mp hp with rfl | hp
    · exact meet_steady hwhole hP (plain_steady hwhole hP hfallback v) _
    · exact entryFittings_steady hwhole hP hfallback rest p hp

end

/-- A value meets the parts of a scoped schema that binds as if each stood alone among the names
that were bound. -/
theorem fit_steady (hwhole : whole.Binds names) (hP : Allows whole P)
    (hfallback : fallback.Steady whole names P) (v : Value) :
    Steady whole names (Outcome.Stops P) (v.fit fallback) :=
  meet_steady hwhole hP (plain_steady hwhole hP hfallback v) _

end All

end Value

/-! ## Defaults -/

namespace Fallback

variable {whole : Schema} {names : Names} {P : Stop Mismatch → Prop} (hwhole : whole.Binds names)
  (hP : Allows whole P)

include hwhole hP

theorem ofFallback_steady {inner : Fallback} (hinner : inner.Steady whole names P)
    (hempty : P (.fault .emptyUnion)) : (ofFallback inner).Steady whole names P := by
  intro bare ns names' name fields hin field hfield hs hscope hmore
  obtain ⟨fieldName, aliases, default, s⟩ := field
  have hfit (v : Value) := Value.fit_steady hwhole hP hinner v s hs hscope hmore
  -- Whatever the default is made into first, it meets the schema of the field in the end.
  have hmeets {x y : Outcome Mismatch Value} (hxy : x = y) (hy : Outcome.Stops P y) :
      (x >>= fun v => v.fit inner names' ns s) = (y >>= fun v => v.fit inner names none s) ∧
        Outcome.Stops P (y >>= fun v => v.fit inner names none s) := by
    subst hxy
    exact ⟨bind_congr fun v => (hfit v).1, hy.bind fun v _ => (hfit v).2⟩
  cases default with
  | none => exact ⟨rfl, .error (hP.mismatch _ rfl)⟩
  | some json =>
    cases s with
    | enum name symbols default =>
      simp only [ofFallback]
      generalize Value.ofJson json = v
      cases v with
      | string t => exact hmeets rfl (Value.resolveSymbol_stops hP symbols default t)
      | _ => exact hmeets rfl (.error (hP.mismatch _ rfl))
    | union branches =>
      cases branches with
      | nil => exact hmeets rfl (.error hempty)
      | cons first rest =>
        have hfirst := hs.branch List.mem_cons_self
        obtain ⟨heq, hstops⟩ :=
          Value.fit_steady hwhole hP hinner (.ofJson json) first hfirst hscope hmore
        cases first with
        | null => exact hmeets rfl (.ok _)
        | _ => exact hmeets (congrArg (Value.union 0 <$> ·) heq) (hstops.bind fun _ _ => .ok _)
    | _ => exact hmeets rfl (.ok _)

theorem ofDepth_steady (hempty : P (.fault .emptyUnion)) (hendless : P (.fault .endlessDefault))
    (depth : Nat) : (ofDepth depth).Steady whole names P := by
  induction depth with
  | zero => exact fun _ _ _ _ _ _ => ⟨rfl, .error hendless⟩
  | succ depth ih => exact ofFallback_steady hwhole hP ih hempty

end Fallback
end RecordTape
