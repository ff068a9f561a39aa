import RecordTape.Proofs.Schema.Regular
import RecordTape.Value.Resolve
/-!
# What resolution gives

A value that meets a regular schema comes out in the form of the schema. The recursion of resolution
is on the value and hands the parts on as fittings, so the result is stated for fittings: each is
`Sound`, and those built from sound ones are sound. Defaults are fallbacks, sound by induction on
the depth that is allowed for them.
-/

namespace RecordTape

open Value (HasForm)

/-- The fitting gives values in the form of the schema that it meets. -/
def Fitting.Sound (f : Fitting) : Prop :=
  ∀ {strict : Bool} {depth : Nat} {names : Names} {bare : Bool} {ns : Namespace} {s : Schema}
    {v : Value}, names.Regular strict depth → s.isRegular strict bare → Scope bare ns →
      f names ns s = .ok v → HasForm false names s v

/-- The fallback gives values in the form of the schema of the field. -/
def Fallback.Sound (f : Fallback) : Prop :=
  ∀ {strict : Bool} {depth : Nat} {names : Names} {bare : Bool} {ns : Namespace}
    {field : Field Schema} {v : Value}, names.Regular strict depth →
      field.schema.isRegular strict bare → field.defaultWellFormed → Scope bare ns →
      f names ns field = .ok v → HasForm false names field.schema v

namespace Bytes

theorem ofText_of_toText? {b : Bytes} {t : String} (h : toText? b = some t) : ofText t = b := by
  unfold toText? String.fromUTF8? at h
  split at h <;> cases h
  simp [ofText, String.fromUTF8, String.toUTF8]

end Bytes

namespace Value

/-! ## Values without parts -/

section Leaf

variable {strict : Bool} {names : Names} {bare : Bool} {v : Value}

theorem hasForm_of_idxOf? {name : Name} {symbols : List String} {default : Option String} {i : Nat}
    {t : String} (hs : (Schema.enum name symbols default).isRegular strict bare)
    (h : symbols.idxOf? t = some i) :
    HasForm false names (.enum name symbols default) (.enum i t) := by
  simp only [Schema.isRegular, Bool.and_eq_true, decide_eq_true_eq] at hs
  obtain ⟨hi, heq, -⟩ := List.idxOf?_eq_some_iff.mp h
  have hbound : (i : Int) < int32Bound := by omega
  exact .enum (by rw [List.getElem?_eq_getElem hi, heq]) hbound

/-- A symbol is found at its position, and so is the default that stands in for it. -/
theorem resolveSymbol_hasForm {name : Name} {symbols : List String} {default : Option String}
    {t : String} (hs : (Schema.enum name symbols default).isRegular strict bare)
    (h : resolveSymbol symbols default t = .ok v) :
    HasForm false names (.enum name symbols default) v := by
  unfold resolveSymbol at h
  split at h
  · cases h
    exact hasForm_of_idxOf? hs ‹_›
  · split at h
    · rename_i i d hd
      cases h
      obtain ⟨d', -, hd⟩ := Option.bind_eq_some_iff.mp hd
      obtain ⟨j, hj, heq⟩ := Option.map_eq_some_iff.mp hd
      cases heq
      exact hasForm_of_idxOf? hs hj
    · cases h

theorem resolveText_hasForm {b : Bytes} (hb : b.length < Capacity.limit)
    (h : resolveText b = .ok v) : HasForm false names .string v := by
  unfold resolveText at h
  split at h
  · rename_i t ht
    cases h
    exact .string (by rwa [Bytes.ofText_of_toText? ht])
  · cases h

theorem resolveDecimal_hasForm {base : DecimalBase} {precision scale : Nat} {b : Bytes}
    (hb : b.length < Capacity.limit) (h : resolveDecimal base precision b = .ok v) :
    HasForm false names (.decimal base precision scale) v := by
  obtain ⟨-, -, h⟩ := Outcome.bind_eq_ok.mp h
  obtain ⟨-, -, h⟩ := Outcome.bind_eq_ok.mp h
  cases h
  exact .decimal hb

theorem resolveLeaf_hasForm {s : Schema} {given : Value} (hg : given.isWellFormed)
    (hs : s.isRegular strict bare) (h : resolveLeaf given s = .ok v) : HasForm false names s v := by
  unfold resolveLeaf at h
  split at h
  -- Most results are built as the schema says at sight; the rest need the sizes of what was given.
  all_goals try simp only [isWellFormed, decide_eq_true_eq] at hg
  all_goals try (cases h; constructor; done)
  case h_15 | h_16 => cases h; exact .bytes hg
  case h_17 => cases h; exact .string hg
  case h_18 | h_19 => exact resolveText_hasForm hg h
  case h_20 => split at h <;> cases h; exact .fixed hg (by simp)
  case h_21 => cases h; exact .fixed hg (by simp)
  case h_22 | h_23 => exact resolveSymbol_hasForm hs h
  case h_24 | h_25 | h_26 => exact resolveDecimal_hasForm hg h
  case h_27 =>
    obtain ⟨-, -, h⟩ := Outcome.bind_eq_ok.mp h
    cases h
  case h_29 => split at h <;> cases h; exact .uuid _
  case h_31 => split at h <;> cases h; exact .intTime ..
  case h_34 => split at h <;> cases h; exact .longTime ..
  case h_35 => cases h; exact .duration hg
  case h_36 => split at h <;> cases h; exact .duration ‹_›
  case h_37 => cases h

end Leaf

/-! ## References and unions -/

section Meeting

variable {plain : Nat → Fitting}

theorem meetDirect_sound (hp : ∀ n, Fitting.Sound (plain n)) (layers : Nat) :
    Fitting.Sound (meetDirect plain layers) := by
  intro strict depth names bare ns s v hnames hs hscope h
  unfold meetDirect at h
  split at h
  · rename_i name
    simp only [Schema.isRegular] at hs
    simp only [Name.qualify_of_regular hscope hs] at h
    split at h
    · rename_i target hf
      obtain ⟨-, htarget, -⟩ := hnames.find? hf
      exact .ref hf (hp _ hnames htarget (Scope.named name) h)
    · cases h
  · exact hp _ hnames hs hscope h

theorem searchBranch_ok {ns : Namespace} {names : Names} {start i : Nat} {branches : List Schema}
    {branch : Schema} (h : searchBranch plain ns names start branches = .ok (i, branch)) :
    start ≤ i ∧ branches[i - start]? = some branch := by
  induction branches generalizing names start with
  | nil => cases h
  | cons b rest ih =>
    rw [searchBranch] at h
    split at h
    · cases h
    · simp only at h
      split at h
      · cases h
        simp
      · cases h
      · obtain ⟨hle, hget⟩ := ih h
        refine ⟨by omega, ?_⟩
        rw [show i - start = (i - (start + 1)) + 1 by omega, List.getElem?_cons_succ]
        exact hget

/-- The branch that is chosen is one of the union, at the position given. -/
theorem chooseBranch_ok {kind : Kind} {names : Names} {ns : Namespace} {i : Nat}
    {branches : List Schema} {branch : Schema}
    (h : chooseBranch kind plain names ns branches = .ok (i, branch)) :
    branches[i]? = some branch := by
  unfold chooseBranch at h
  split at h
  · rename_i hfind
    cases h
    exact List.mem_zipIdx_iff_getElem?.mp (List.mem_of_find?_eq_some hfind)
  · exact (searchBranch_ok h).2

theorem meet_sound (hp : ∀ n, Fitting.Sound (plain n)) (kind : Kind) :
    Fitting.Sound (meet kind plain) := by
  intro strict depth names bare ns s v hnames hs hscope h
  unfold meet at h
  split at h
  · rename_i branches
    simp only [Schema.isRegular, Bool.and_eq_true, decide_eq_true_eq] at hs
    obtain ⟨⟨i, branch⟩, hchoose, h⟩ := Outcome.bind_eq_ok.mp h
    obtain ⟨w, hmeet, h⟩ := Outcome.bind_eq_ok.mp h
    cases h
    have hget := chooseBranch_ok hchoose
    obtain ⟨hi, heq⟩ := List.getElem?_eq_some_iff.mp hget
    have hbranch := Schema.branchesRegular_iff.mp hs.2 branch (heq ▸ List.getElem_mem hi)
    exact .union hget (by omega) (meetDirect_sound hp 1 hnames hbranch hscope hmeet)
  · exact meetDirect_sound hp 0 hnames hs hscope h

end Meeting

/-! ## Values with parts -/

section Parts

variable {strict : Bool} {depth : Nat} {names : Names} {bare : Bool} {ns : Namespace} {s : Schema}
  {v : Value}

theorem resolveItems_hasForm {items : List Fitting} (hitems : ∀ f ∈ items, Fitting.Sound f)
    (hlen : items.length < Capacity.limit) (hnames : names.Regular strict depth)
    (hs : s.isRegular strict bare) (hscope : Scope bare ns)
    (h : resolveItems names ns s items = .ok v) : HasForm false names (.array s) v := by
  obtain ⟨vs, hvs, h⟩ := Outcome.bind_eq_ok.mp h
  cases h
  refine .array ((Outcome.mapM_eq_ok.mp hvs).length_eq ▸ hlen) fun w hw => ?_
  obtain ⟨f, hf, hw⟩ := Outcome.exists_of_mem_mapM hvs hw
  exact hitems f hf hnames hs hscope hw

theorem resolveBytes_hasForm {items : List Fitting} (hlen : items.length < Capacity.limit)
    (h : resolveBytes items = .ok v) : HasForm false names .bytes v := by
  obtain ⟨b, hb, h⟩ := Outcome.bind_eq_ok.mp h
  cases h
  exact .bytes ((Outcome.mapM_eq_ok.mp hb).length_eq ▸ hlen)

theorem resolveEntries_hasForm {entries : List (String × Fitting)}
    (hentries : ∀ p ∈ entries, Fitting.Sound p.2) (hlen : entries.length < Capacity.limit)
    (hkeys : (entries.map (·.1)).Nodup)
    (htexts : ∀ p ∈ entries, (Bytes.ofText p.1).length < Capacity.limit)
    (hnames : names.Regular strict depth) (hs : s.isRegular strict bare) (hscope : Scope bare ns)
    (h : resolveEntries names ns s entries = .ok v) : HasForm false names (.map s) v := by
  obtain ⟨vs, hvs, h⟩ := Outcome.bind_eq_ok.mp h
  cases h
  have hfst : entries.map (·.1) = vs.map (·.1) := by
    refine Outcome.map_eq_of_mapM hvs fun p _ q hq => ?_
    obtain ⟨w, -, ⟨⟩⟩ := Outcome.bind_eq_ok.mp hq
    rfl
  refine .map ((Outcome.mapM_eq_ok.mp hvs).length_eq ▸ hlen) (hfst ▸ hkeys) ?_ ?_
  · intro q hq
    obtain ⟨p, hp, hpq⟩ := List.mem_map.mp (hfst.symm ▸ List.mem_map_of_mem hq)
    exact hpq ▸ htexts p hp
  · intro q hq
    obtain ⟨p, hp, hq⟩ := Outcome.exists_of_mem_mapM hvs hq
    obtain ⟨w, hw, hq⟩ := Outcome.bind_eq_ok.mp hq
    cases hq
    exact hentries p hp hnames hs hscope hw

/-- Every field of the schema is in the record, as an entry says or as the fallback does. -/
theorem resolveFields_hasForm {fallback : Fallback} {entries : List (String × Fitting)}
    {name : Name} {fields : List (Field Schema)} (hfallback : fallback.Sound)
    (hentries : ∀ p ∈ entries, Fitting.Sound p.2) (hnames : names.Regular strict depth)
    (hs : Schema.fieldsRegular strict bare fields) (hscope : Scope bare ns)
    (h : resolveFields fallback names ns fields entries = .ok v) :
    HasForm false names (.record name fields) v := by
  obtain ⟨vs, hvs, h⟩ := Outcome.bind_eq_ok.mp h
  cases h
  have hall : List.Forall₂ (fun field q => q.1 = field.name ∧ HasForm false names field.schema q.2)
      fields vs := by
    refine Outcome.forall₂_of_mapM hvs fun field hfield q hq => ?_
    obtain ⟨hschema, hdefault⟩ := Schema.regular_of_mem hs field hfield
    split at hq
    · rename_i entry hentry
      obtain ⟨w, hw, ⟨⟩⟩ := Outcome.bind_eq_ok.mp hq
      obtain ⟨l₁, l₂, rfl, -⟩ := List.lookup_eq_some_iff.mp hentry
      exact ⟨rfl, hentries (field.name, entry) (by simp) hnames hschema hscope hw⟩
    · obtain ⟨w, hw, ⟨⟩⟩ := Outcome.bind_eq_ok.mp hq
      exact ⟨rfl, hfallback hnames hschema hdefault hscope hw⟩
  refine .record ?_ fun p hp => (List.forall₂_zip hall hp).2
  rw [← List.forall₂_eq_eq_eq, List.forall₂_map_left_iff, List.forall₂_map_right_iff]
  exact hall.flip.imp fun _ _ h => h.1

end Parts

/-! ## All values -/

@[simp] theorem length_fittings (fallback : Fallback) (items : List Value) :
    (fittings fallback items).length = items.length := by
  induction items with
  | nil => rfl
  | cons v rest ih => simp [fittings, ih]

@[simp] theorem map_fst_entryFittings (fallback : Fallback) (entries : List (String × Value)) :
    (entryFittings fallback entries).map (·.1) = entries.map (·.1) := by
  induction entries with
  | nil => rfl
  | cons p rest ih => simp [entryFittings, ih]

mutual

theorem plain_sound {fallback : Fallback} (hf : fallback.Sound) (v : Value) (hv : v.isWellFormed)
    (layers : Nat) : Fitting.Sound (plain fallback v layers) := by
  intro strict depth names bare ns s w hnames hs hscope h
  cases v with
  | union i v =>
    cases layers with
    | zero => exact resolveLeaf_hasForm hv hs h
    | succ layers =>
      exact plain_sound hf v (by simpa only [isWellFormed] using hv) layers hnames hs hscope h
  | array items =>
    have hwf := hv
    simp only [isWellFormed, Bool.and_eq_true, decide_eq_true_eq] at hwf
    cases s with
    | array schema =>
      exact resolveItems_hasForm (fittings_sound hf items hwf.2) (by simpa using hwf.1) hnames hs
        hscope h
    | bytes => exact resolveBytes_hasForm (by simpa using hwf.1) h
    | _ => exact resolveLeaf_hasForm hv hs h
  | map entries =>
    have hwf := hv
    simp only [isWellFormed, Bool.and_eq_true, decide_eq_true_eq, List.all_eq_true] at hwf
    obtain ⟨⟨⟨hlen, hkeys⟩, htexts⟩, hentries⟩ := hwf
    have hsound := entryFittings_sound hf entries hentries
    have hfst := map_fst_entryFittings fallback entries
    cases s with
    | map schema =>
      refine resolveEntries_hasForm hsound ?_ (hfst ▸ hkeys) ?_ hnames hs hscope h
      · have := congrArg List.length hfst
        simp only [List.length_map] at this
        omega
      · intro p hp
        obtain ⟨q, hq, hqp⟩ := List.mem_map.mp (hfst ▸ List.mem_map_of_mem hp)
        exact hqp ▸ htexts q hq
    | record name fields =>
      simp only [Schema.isRegular, Bool.and_eq_true] at hs
      exact resolveFields_hasForm hf hsound hnames hs.2 (hscope.kept hs.1) h
    | _ => exact resolveLeaf_hasForm hv hs h
  | record entries =>
    have hsound := entryFittings_sound hf entries (by simpa only [isWellFormed] using hv)
    cases s with
    | record name fields =>
      simp only [Schema.isRegular, Bool.and_eq_true] at hs
      exact resolveFields_hasForm hf (fun p hp => hsound p (List.mem_reverse.mp hp)) hnames hs.2
        (hscope.kept hs.1) h
    | _ => exact resolveLeaf_hasForm hv hs h
  | _ => exact resolveLeaf_hasForm hv hs h

theorem fittings_sound {fallback : Fallback} (hf : fallback.Sound) (items : List Value)
    (hv : areWellFormed items) : ∀ f ∈ fittings fallback items, Fitting.Sound f := by
  cases items with
  | nil => intro f hmem; cases hmem
  | cons v rest =>
    simp only [areWellFormed, Bool.and_eq_true] at hv
    intro f hmem
    rcases List.mem_cons.mp hmem with rfl | hmem
    · exact meet_sound (plain_sound hf v hv.1) _
    · exact fittings_sound hf rest hv.2 f hmem

theorem entryFittings_sound {fallback : Fallback} (hf : fallback.Sound)
    (entries : List (String × Value)) (hv : entriesWellFormed entries) :
    ∀ p ∈ entryFittings fallback entries, Fitting.Sound p.2 := by
  cases entries with
  | nil => intro p hmem; cases hmem
  | cons p rest =>
    obtain ⟨k, v⟩ := p
    simp only [entriesWellFormed, Bool.and_eq_true] at hv
    intro p hmem
    rcases List.mem_cons.mp hmem with rfl | hmem
    · exact meet_sound (plain_sound hf v hv.1) _
    · exact entryFittings_sound hf rest hv.2 p hmem

end

theorem fit_sound {fallback : Fallback} (hf : fallback.Sound) {v : Value} (hv : v.isWellFormed) :
    Fitting.Sound (v.fit fallback) :=
  meet_sound (plain_sound hf v hv) _

end Value

/-! ## Defaults -/

namespace Fallback

theorem ofFallback_sound {inner : Fallback} (hinner : inner.Sound) : (ofFallback inner).Sound := by
  intro strict depth names bare ns field v hnames hs hdefault hscope h
  -- Whatever the default is made into first, it meets the schema of the field in the end.
  have hmeets : ∀ w : Value, w.isWellFormed → w.fit inner names ns field.schema = .ok v →
      HasForm false names field.schema v :=
    fun w hw h => Value.fit_sound hinner hw hnames hs hscope h
  unfold ofFallback at h
  unfold Field.defaultWellFormed at hdefault
  split at h
  · cases h
  · rename_i json hjson
    rw [hjson] at hdefault
    simp only at h
    split at h
    · rename_i name symbols default hschema
      obtain ⟨w, hw, h⟩ := Outcome.bind_eq_ok.mp h
      split at hw
      · rw [hschema] at hs
        have hform : HasForm false names (.enum name symbols default) w :=
          Value.resolveSymbol_hasForm hs hw
        exact hmeets w hform.isWellFormed h
      · cases hw
    · cases h
    · obtain ⟨w, hw, h⟩ := Outcome.bind_eq_ok.mp h
      cases hw
      exact hmeets _ rfl h
    · rename_i first rest _ hschema
      obtain ⟨w, hw, h⟩ := Outcome.bind_eq_ok.mp h
      obtain ⟨u, hu, rfl⟩ := Outcome.map_eq_ok.mp hw
      refine hmeets _ ?_ h
      rw [hschema] at hs
      simp only [Schema.isRegular, Schema.branchesRegular, Bool.and_eq_true] at hs
      simpa only [Value.isWellFormed] using
        (Value.fit_sound hinner hdefault hnames hs.2.1 hscope hu).isWellFormed
    · exact hmeets _ hdefault h

theorem ofDepth_sound (depth : Nat) : (ofDepth depth).Sound := by
  induction depth with
  | zero =>
    intro strict depth names bare ns field v _ _ _ _ h
    cases h
  | succ depth ih => exact ofFallback_sound ih

end Fallback

namespace Value

/-- What a well-formed value resolves to has the form of the schema, sizes of fixed bytes aside. -/
theorem resolveWithin_hasForm {strict : Bool} {s : Schema} {names : Names} {v w : Value}
    (hs : s.regularAlone strict) (hnames : s.names = .ok names) (hv : v.isWellFormed)
    (h : v.resolveWithin names s.ns s = .ok w) : HasForm false names s w :=
  fit_sound (Fallback.ofDepth_sound _) hv (Schema.names_regular hs hnames) hs (Scope.alone s) h

end Value
end RecordTape
