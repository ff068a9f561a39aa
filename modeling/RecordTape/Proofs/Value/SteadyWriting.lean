import RecordTape.Proofs.Value.RoundTrip
import RecordTape.Proofs.Value.Steady
import RecordTape.Proofs.Value.Valid
/-!
# Names in validation and in writing

Validation and the writer walk over the schema again, each with a namespace of its own. Under a
scoped schema that binds they find the definitions that resolution found (`issues_steady`,
`encode_steady`): neither reports a name that stands for nothing.
-/

namespace RecordTape

open Schema (Settled)

def Issue.aboutName : Issue → Bool
  | .unresolved _ => true
  | _ => false

def EncodeError.aboutName : EncodeError → Bool
  | .unresolved _ => true
  | _ => false

/-- A computation stops for a name: with an error that is about one, or because a branch that is
searched cannot be bound. -/
def Stop.concerns {ε : Type} (about : ε → Bool) : Stop ε → Bool
  | .error cause => about cause
  | .fault f => f = .unboundBranch

/-- A check that finds nothing about names, and ends in a fault only as described. -/
structure Checked (P : Stop Mismatch → Prop) (found : Except Fault (List Issue)) : Prop where
  stops : Outcome.Stops (fun f => P (.fault f)) found
  names : ∀ issues, found = .ok issues → ∀ i ∈ issues, i.aboutName = false

namespace Checked

variable {P : Stop Mismatch → Prop}

theorem none : Checked P (.ok []) := ⟨.ok _, by rintro _ ⟨⟩ i hi; cases hi⟩

theorem one {i : Issue} (h : i.aboutName = false) : Checked P (.ok [i]) := by
  refine ⟨.ok _, ?_⟩
  rintro _ ⟨⟩ j hj
  rwa [List.mem_singleton.mp hj]

theorem issueUnless (holds : Bool) {i : Issue} (h : i.aboutName = false) :
    Checked P (Value.issueUnless holds i) := by
  cases holds with
  | true => exact none
  | false => exact one h

/-- What the parts are checked for is what the whole is checked for. -/
theorem parts {α : Type} {check : α → Except Fault (List Issue)} {xs : List α}
    (h : ∀ x ∈ xs, Checked P (check x)) : Checked P (do return (← xs.mapM check).flatten) := by
  refine ⟨.bind (.mapM fun x hx => (h x hx).stops) fun _ _ => .ok _, ?_⟩
  intro issues hissues i hi
  obtain ⟨found, hfound, ⟨⟩⟩ := Outcome.bind_eq_ok.mp hissues
  obtain ⟨some, hsome, hi⟩ := List.mem_flatten.mp hi
  obtain ⟨x, hx, hcheck⟩ := Outcome.exists_of_mem_mapM hfound hsome
  exact (h x hx).names some hcheck i hi

end Checked

namespace Field

theorem mem_of_directory {fields : List (Field Schema)} {name : String} {f : Field Schema}
    (h : (directory fields).lookup name = some f) : f ∈ fields := by
  have hmem := Value.mem_of_lookup h
  rw [directory, List.mem_reverse] at hmem
  obtain ⟨g, hg, hclaim⟩ := List.mem_flatMap.mp hmem
  rcases List.mem_cons.mp hclaim with heq | hclaim
  · cases heq
    exact hg
  · obtain ⟨a, -, heq⟩ := List.mem_map.mp hclaim
    cases heq
    exact hg

end Field

/-- Writing stops for no name. -/
def Emission.Named (em : Emission) : Prop :=
  ∀ stop, em.stop = some stop → stop.concerns EncodeError.aboutName = false

namespace Emission.Named

theorem done (b : Bytes) : (done b).Named := by rintro _ ⟨⟩

theorem fail {e : EncodeError} (h : e.aboutName = false) : (fail e).Named := by
  rintro _ ⟨⟩
  exact h

theorem crash {f : Fault} (h : f ≠ .unboundBranch) : (crash f).Named := by
  rintro _ ⟨⟩
  exact decide_eq_false h

theorem append {a b : Emission} (ha : a.Named) (hb : b.Named) : (a ++ b).Named := by
  intro stop h
  cases hstop : a.stop with
  | some s => exact ha stop (append_of_stop hstop b ▸ h)
  | none =>
    refine hb stop ?_
    rw [← h]
    show b.stop = (Emission.append a b).stop
    simp [Emission.append, hstop]

theorem concat {α : Type} {f : α → Emission} {xs : List α} (h : ∀ x ∈ xs, (f x).Named) :
    (concat (xs.map f)).Named := by
  induction xs with
  | nil => exact done []
  | cons x rest ih =>
    exact (h x List.mem_cons_self).append (ih fun y hy => h y (List.mem_cons_of_mem _ hy))

end Emission.Named

namespace Value

theorem encodeLeaf_named (s : Schema) (v : Value) : (encodeLeaf s v).Named := by
  unfold encodeLeaf
  split
  all_goals try exact .done _
  · split
    · exact .done _
    · exact .fail rfl
  · split
    · exact .done _
    · exact .crash (by rintro ⟨⟩)
  · exact .fail rfl

/-! ## Checks -/

section Checks

variable {whole : Schema} {names names' : Names} {P : Stop Mismatch → Prop} {bare : Bool}
  {ns : Namespace} {fallback : Fallback}

theorem leafIssues_checked (s : Schema) (v : Value) : Checked P (leafIssues s v) := by
  unfold leafIssues
  split
  all_goals try exact .none
  all_goals try exact .issueUnless _ rfl
  · split <;> exact .issueUnless _ rfl
  · exact .one rfl

/-- A reference is checked as its definition, and this is neither a reference nor a union. -/
theorem checkThrough_steady {inUnion direct : Check} (hwhole : whole.Binds names)
    (hunion : ∀ branches, SteadyAt whole names (Checked P) inUnion (.union branches))
    (hdirect : ∀ s, s.kind ≠ .ref → s.kind ≠ .union → SteadyAt whole names (Checked P) direct s) :
    Steady whole names (Checked P) (checkThrough inUnion direct) := by
  intro s bare ns names' hs hscope hmore
  cases s with
  | ref name =>
    obtain ⟨target, htarget⟩ := hs.find?
    obtain ⟨hdefined, hsettled⟩ := Settled.of_find? hwhole htarget
    have hthrough {names₁ : Names} {ns₁ : Namespace} (hscope₁ : Scope bare ns₁)
        (hmore₁ : names₁.Extends names) : checkThrough inUnion direct names₁ ns₁ (.ref name) =
          direct names₁ name.ns target := by
      rw [checkThrough_ref (Name.qualify_of_regular hscope₁ hs.isScoped)
        (hmore₁ name target htarget) hdefined]
      cases target <;> first | rfl | cases hdefined
    obtain ⟨hkind, hkind'⟩ := Schema.kind_of_definedName hdefined
    rw [hthrough hscope hmore, hthrough (.none bare) (.refl names)]
    exact SteadyAt.between (hdirect target hkind hkind') hsettled (Scope.named name) hmore
      (Scope.named name) (.refl names)
  | union branches => exact hunion branches hs hscope hmore
  | _ => exact hdirect _ (by rintro ⟨⟩) (by rintro ⟨⟩) hs hscope hmore

/-- Under a union a branch is searched as in resolution. -/
theorem searchIssues_steady (hwhole : whole.Binds names) (hP : Allows whole P)
    (hfallback : fallback.Steady whole names P) (v : Value) (branches : List Schema) :
    SteadyAt whole names (Checked P) (searchIssues fallback v) (.union branches) := by
  intro bare ns names' hs hscope hmore
  obtain ⟨heq, hstops⟩ := chooseBranch_steady hwhole hP
    (plain_steady hwhole hP hfallback v) v.kind hs hscope hmore
  simp only [searchIssues, heq]
  refine ⟨trivial, ?_⟩
  cases hchosen : chooseBranch v.kind (plain fallback v) names none branches with
  | ok p => exact .none
  | error stop =>
    cases stop with
    | error e => exact .one rfl
    | fault f => exact ⟨.error (hstops _ hchosen), by rintro _ ⟨⟩⟩

theorem fieldIssues_steady {name : Name} {fields : List (Field Schema)}
    {entries : List (String × Check)}
    (hentries : ∀ p ∈ entries, Steady whole names (Checked P) p.2)
    (hs : Settled whole names bare (.record name fields)) (hscope : Scope bare ns)
    (hmore : names'.Extends names) :
    fieldIssues names' (name.ns <|> ns) fields entries =
        fieldIssues names (name.ns <|> none) fields entries ∧
      Checked P (fieldIssues names (name.ns <|> none) fields entries) := by
  have hinner := hscope.within hs.record.1
  have hinner' := (Scope.none bare).within hs.record.1
  have hpart {p : String × Check} (hp : p ∈ entries) {f : Field Schema} (hf : f ∈ fields) :
      p.2 names' (name.ns <|> ns) f.schema = p.2 names (name.ns <|> none) f.schema ∧
        Checked P (p.2 names (name.ns <|> none) f.schema) :=
    SteadyAt.between (hentries p hp f.schema) (hs.field hf) hinner hmore hinner' (.refl names)
  unfold fieldIssues
  simp only
  split
  · exact ⟨rfl, .one rfl⟩
  · split
    · exact ⟨rfl, .one rfl⟩
    · refine ⟨congrArg (· >>= _) (Outcome.mapM_congr fun p hp => ?_), .parts fun p hp => ?_⟩
      · cases hlookup : (Field.directory fields).lookup p.1 with
        | none => rfl
        | some f => exact (hpart hp (Field.mem_of_directory hlookup)).1
      · cases hlookup : (Field.directory fields).lookup p.1 with
        | none => exact .one rfl
        | some f => exact (hpart hp (Field.mem_of_directory hlookup)).2

theorem entryIssues_steady {name : Name} {fields : List (Field Schema)}
    {entries : List (String × Check)}
    (hentries : ∀ p ∈ entries, Steady whole names (Checked P) p.2)
    (hs : Settled whole names bare (.record name fields)) (hscope : Scope bare ns)
    (hmore : names'.Extends names) :
    entryIssues names' ns fields entries = entryIssues names none fields entries ∧
      Checked P (entryIssues names none fields entries) := by
  have hpart {f : Field Schema} (hf : f ∈ fields) {check : Check}
      (hlookup : entries.lookup f.name = some check) :
      check names' ns f.schema = check names none f.schema ∧
        Checked P (check names none f.schema) :=
    hentries (f.name, check) (mem_of_lookup hlookup) f.schema (hs.field hf)
      (hscope.kept hs.record.1) hmore
  unfold entryIssues
  refine ⟨congrArg (· >>= _) (Outcome.mapM_congr fun f hf => ?_), .parts fun f hf => ?_⟩
  · cases hlookup : entries.lookup f.name with
    | none => rfl
    | some check => exact (hpart hf hlookup).1
  · cases hlookup : entries.lookup f.name with
    | none => exact .issueUnless _ rfl
    | some check => exact (hpart hf hlookup).2

mutual

/-- What is wrong with a value under a part of a scoped schema that binds is never a name. -/
theorem issues_steady (hwhole : whole.Binds names) (hP : Allows whole P)
    (hfallback : fallback.Steady whole names P) (v : Value) :
    Steady whole names (Checked P) (issues fallback v) := by
  have hsearch := searchIssues_steady hwhole hP hfallback v
  have hunsupported : Checked P (pure [.unsupported]) := .one rfl
  cases v with
  | union i v =>
    have hpart := issues_steady hwhole hP hfallback v
    rw [issues]
    refine checkThrough_steady hwhole (fun branches => ?_) fun s _ hkind => ?_
    · intro bare ns names' hs hscope hmore
      cases hbranch : branches[i]? with
      | none => simp only [hbranch]; exact ⟨trivial, .one rfl⟩
      | some branch =>
        simp only [hbranch]
        exact hpart branch (hs.branch (List.mem_of_getElem? hbranch)) hscope hmore
    · intro bare ns names' _ _ _
      cases s with
      | union branches => exact absurd rfl hkind
      | _ => exact ⟨rfl, hunsupported⟩
  | array items =>
    have hitems := checks_steady hwhole hP hfallback items
    rw [issues]
    refine checkThrough_steady hwhole hsearch fun s _ _ => ?_
    intro bare ns names' hs hscope hmore
    cases s with
    | array schema =>
      have hpart {check : Check} (hcheck : check ∈ checks fallback items) :=
        hitems check hcheck schema hs.items hscope hmore
      refine ⟨congrArg (· >>= _) (Outcome.mapM_congr fun check hcheck => (hpart hcheck).1),
        .parts fun check hcheck => (hpart hcheck).2⟩
    | _ => exact ⟨rfl, hunsupported⟩
  | map entries =>
    have hentries := entryChecks_steady hwhole hP hfallback entries
    rw [issues]
    refine checkThrough_steady hwhole hsearch fun s _ _ => ?_
    intro bare ns names' hs hscope hmore
    cases s with
    | map schema =>
      have hpart {p : String × Check} (hp : p ∈ entryChecks fallback entries) :=
        hentries p hp schema hs.values hscope hmore
      refine ⟨congrArg (· >>= _) (Outcome.mapM_congr fun p hp => (hpart hp).1),
        .parts fun p hp => (hpart hp).2⟩
    | record name fields => exact entryIssues_steady hentries hs hscope hmore
    | _ => exact ⟨rfl, hunsupported⟩
  | record entries =>
    have hentries := entryChecks_steady hwhole hP hfallback entries
    rw [issues]
    refine checkThrough_steady hwhole hsearch fun s _ _ => ?_
    intro bare ns names' hs hscope hmore
    cases s with
    | record name fields => exact fieldIssues_steady hentries hs hscope hmore
    | _ => exact ⟨rfl, hunsupported⟩
  | _ =>
    exact checkThrough_steady hwhole hsearch fun s _ _ _ _ _ _ _ _ => ⟨rfl, leafIssues_checked s _⟩

theorem checks_steady (hwhole : whole.Binds names) (hP : Allows whole P)
    (hfallback : fallback.Steady whole names P) (items : List Value) :
    ∀ check ∈ checks fallback items, Steady whole names (Checked P) check := by
  cases items with
  | nil => intro check hcheck; cases hcheck
  | cons v rest =>
    intro check hcheck
    rcases List.mem_cons.mp hcheck with rfl | hcheck
    · exact issues_steady hwhole hP hfallback v
    · exact checks_steady hwhole hP hfallback rest check hcheck

theorem entryChecks_steady (hwhole : whole.Binds names) (hP : Allows whole P)
    (hfallback : fallback.Steady whole names P) (entries : List (String × Value)) :
    ∀ p ∈ entryChecks fallback entries, Steady whole names (Checked P) p.2 := by
  cases entries with
  | nil => intro p hp; cases hp
  | cons p rest =>
    obtain ⟨k, v⟩ := p
    intro p hp
    rcases List.mem_cons.mp hp with rfl | hp
    · exact issues_steady hwhole hP hfallback v
    · exact entryChecks_steady hwhole hP hfallback rest p hp

end

end Checks

/-! ## Binary encoding -/

section Encodings

variable {whole : Schema} {names names' : Names} {bare : Bool} {ns : Namespace}

/-- A reference is written as its definition, in the namespace around the reference. -/
theorem encodeThrough_steady {direct : Encoding} (hwhole : whole.Binds names)
    (hdirect : ∀ s, s.kind ≠ .ref → SteadyAt whole names Emission.Named direct s) :
    Steady whole names Emission.Named (encodeThrough direct) := by
  intro s bare ns names' hs hscope hmore
  cases s with
  | ref name =>
    obtain ⟨target, htarget⟩ := hs.find?
    obtain ⟨hdefined, hsettled⟩ := Settled.of_find? hwhole htarget
    have hkind := (Schema.kind_of_definedName hdefined).1
    simp only [encodeThrough, Name.qualify_of_regular hscope hs.isScoped,
      Name.qualify_of_regular (.none bare) hs.isScoped, htarget, hmore name target htarget]
    exact hdirect target hkind hsettled (hscope.kept hs.isScoped) hmore
  | _ => exact hdirect _ (by rintro ⟨⟩) hs hscope hmore

theorem encodeFields_steady (values : List (String × Value)) {entries : List (String × Encoding)}
    {fields : List (Field Schema)}
    (hentries : ∀ p ∈ entries, Steady whole names Emission.Named p.2)
    (hs : ∀ f ∈ fields, Settled whole names bare f.schema) (hscope : Scope bare ns)
    (hmore : names'.Extends names) :
    encodeFields names' ns values entries fields = encodeFields names none values entries fields ∧
      (encodeFields names none values entries fields).Named := by
  induction fields with
  | nil => exact ⟨rfl, .done _⟩
  | cons f rest ih =>
    obtain ⟨hrest, hnamed⟩ := ih fun g hg => hs g (List.mem_cons_of_mem _ hg)
    rw [encodeFields, encodeFields, hrest]
    cases hentry : entryOf entries f with
    | none => exact ⟨rfl, .fail rfl⟩
    | some encoding =>
      obtain ⟨name, -, hlookup⟩ := List.exists_of_findSome?_eq_some hentry
      obtain ⟨heq, hfirst⟩ := hentries (name, encoding) (mem_of_lookup hlookup) f.schema
        (hs f List.mem_cons_self) hscope hmore
      exact ⟨congrArg (· ++ _) heq, hfirst.append hnamed⟩

mutual

/-- No value is refused for a name while it is written under a part of a scoped schema that
binds. -/
theorem encode_steady (hwhole : whole.Binds names) (v : Value) :
    Steady whole names Emission.Named (encode v) := by
  cases v with
  | union i v =>
    have hpart := encode_steady hwhole v
    rw [encode]
    refine encodeThrough_steady hwhole fun s _ => ?_
    intro bare ns names' hs hscope hmore
    cases s with
    | union branches =>
      cases hbranch : branches[i]? with
      | none => simp only [hbranch]; exact ⟨trivial, .crash (by rintro ⟨⟩)⟩
      | some branch =>
        simp only [hbranch]
        obtain ⟨heq, hnamed⟩ :=
          hpart branch (hs.branch (List.mem_of_getElem? hbranch)) hscope hmore
        exact ⟨congrArg _ heq, .append (.done _) hnamed⟩
    | _ => exact ⟨rfl, .fail rfl⟩
  | array items =>
    have hitems := encodings_steady hwhole items
    rw [encode]
    refine encodeThrough_steady hwhole fun s _ => ?_
    intro bare ns names' hs hscope hmore
    cases s with
    | array schema =>
      have hpart {encoding : Encoding} (h : encoding ∈ encodings items) :=
        hitems encoding h schema hs.items hscope hmore
      refine ⟨congrArg (fun es => _ ++ Emission.concat es ++ _) (List.map_congr_left fun _ h => ?_),
        .append (.append (.done _) (.concat fun _ h => ?_)) (.done _)⟩
      · exact (hpart h).1
      · exact (hpart h).2
    | _ => exact ⟨rfl, .fail rfl⟩
  | map entries =>
    have hentries := entryEncodings_steady hwhole entries
    rw [encode]
    refine encodeThrough_steady hwhole fun s _ => ?_
    intro bare ns names' hs hscope hmore
    cases s with
    | map schema =>
      have hpart {p : String × Encoding} (h : p ∈ entryEncodings entries) :=
        hentries p h schema hs.values hscope hmore
      refine ⟨congrArg (fun es => _ ++ Emission.concat es ++ _) (List.map_congr_left fun p h => ?_),
        .append (.append (.done _) (.concat fun p h => ?_)) (.done _)⟩
      · exact congrArg (_ ++ ·) (hpart h).1
      · exact .append (.done _) (hpart h).2
    | _ => exact ⟨rfl, .fail rfl⟩
  | record entries =>
    have hentries := entryEncodings_steady hwhole entries
    rw [encode]
    refine encodeThrough_steady hwhole fun s _ => ?_
    intro bare ns names' hs hscope hmore
    cases s with
    | record name fields =>
      simp only [Name.qualify_of_regular hscope hs.record.1,
        Name.qualify_of_regular (.none bare) hs.record.1]
      have hreverse : ∀ p ∈ (entryEncodings entries).reverse,
          Steady whole names Emission.Named p.2 :=
        fun p hp => hentries p (List.mem_reverse.mp hp)
      have hfar := encodeFields_steady entries hreverse (fun f hf => hs.field hf)
        (Scope.named name) hmore
      have hnear := encodeFields_steady entries hreverse (fun f hf => hs.field hf)
        (Scope.named name) (.refl names)
      exact ⟨hfar.1.trans hnear.1.symm, hnear.1 ▸ hnear.2⟩
    | _ => exact ⟨rfl, .fail rfl⟩
  | _ => exact encodeThrough_steady hwhole fun s _ _ _ _ _ _ _ => ⟨rfl, encodeLeaf_named s _⟩

theorem encodings_steady (hwhole : whole.Binds names) (items : List Value) :
    ∀ encoding ∈ encodings items, Steady whole names Emission.Named encoding := by
  cases items with
  | nil => intro encoding h; cases h
  | cons v rest =>
    intro encoding h
    rcases List.mem_cons.mp h with rfl | h
    · exact encode_steady hwhole v
    · exact encodings_steady hwhole rest encoding h

theorem entryEncodings_steady (hwhole : whole.Binds names) (entries : List (String × Value)) :
    ∀ p ∈ entryEncodings entries, Steady whole names Emission.Named p.2 := by
  cases entries with
  | nil => intro p hp; cases hp
  | cons p rest =>
    obtain ⟨k, v⟩ := p
    intro p hp
    rcases List.mem_cons.mp hp with rfl | hp
    · exact encode_steady hwhole v
    · exact entryEncodings_steady hwhole rest p hp

end

end Encodings

end Value
end RecordTape
