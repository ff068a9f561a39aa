import RecordTape.Proofs.Schema.Parts
import RecordTape.Proofs.Value.AnyOrder
import RecordTape.Proofs.Value.Meeting
import RecordTape.Proofs.Value.Resolved
/-!
# Schemas without maps

Where no schema for maps is in reach, the order of maps has no part in anything. A map that was
given becomes a record, and the fields of that are looked up by name: so values that are the same
but for the order of maps take the same form or are refused alike (`fit_same`). The form holds no
maps, so that there is nothing in it to be put into another order (`fit_rigid`).
-/

namespace RecordTape

/-- No schema for maps stands in it. What a reference stands for does not count. -/
def Schema.isMapless (s : Schema) : Bool := s.only (· ≠ .map)

/-- Nothing that the names stand for has a schema for maps in it. -/
abbrev Names.Mapless (names : Names) : Prop := names.Only (· ≠ .map)

namespace Schema

variable {s : Schema}

theorem isMapless_items (h : (Schema.array s).isMapless) : s.isMapless := by
  rw [isMapless, only, Bool.and_eq_true] at h
  exact h.2

theorem isMapless_branch {branches : List Schema} (h : (Schema.union branches).isMapless)
    (hs : s ∈ branches) : s.isMapless := by
  rw [isMapless, only, Bool.and_eq_true] at h
  exact branchesOnly_iff.mp h.2 s hs

theorem isMapless_field {name : Name} {fields : List (Field Schema)} {f : Field Schema}
    (h : (Schema.record name fields).isMapless) (hf : f ∈ fields) : f.schema.isMapless := by
  rw [isMapless, only, Bool.and_eq_true] at h
  exact fieldsOnly_iff.mp h.2 f hf

/-- The names that a branch binds in a search stand for parts of it. -/
theorem mapless_append {known found : Names} {ns : Namespace} (hs : s.isMapless)
    (hbind : s.bind known ns [] = .ok found) (hknown : known.Mapless) :
    (found ++ known).Mapless := by
  intro p hp
  rcases List.mem_append.mp hp with hp | hp
  · obtain ⟨hin, -⟩ := (within_of_bind s hbind p hp).resolve_left (by nofun)
    exact only_of_within hin hs
  · exact hknown p hp

end Schema

namespace Value

/-! ## Forms without maps -/

/-- Nothing else is the same but for the order of maps. -/
def Rigid (v : Value) : Prop := ∀ w, Rearranged v w → w = v

theorem eq_of_rigid {items items' : List Value} (h : ∀ v ∈ items, v.Rigid)
    (hrel : List.Forall₂ Rearranged items items') : items' = items := by
  induction hrel with
  | nil => rfl
  | cons hvw _ ih =>
    rw [List.forall_mem_cons] at h
    rw [h.1 _ hvw, ih h.2]

theorem rigid_array {items : List Value} (h : ∀ v ∈ items, v.Rigid) :
    (Value.array items).Rigid := by
  intro w hw
  cases hw with
  | refl => rfl
  | array hlen hparts => rw [eq_of_rigid h (forall₂_of_zip hlen hparts)]

theorem rigid_union {i : Nat} {v : Value} (h : v.Rigid) : (Value.union i v).Rigid := by
  intro w hw
  cases hw with
  | refl => rfl
  | union _ hv => rw [h _ hv]

theorem rigid_record {fields : List (String × Value)} (h : ∀ p ∈ fields, p.2.Rigid) :
    (Value.record fields).Rigid := by
  intro w hw
  cases hw with
  | refl => rfl
  | record hnames hparts =>
    have hrel := entriesRelated_of_zip hnames hparts
    clear hnames hparts
    congr 1
    induction hrel with
    | nil => rfl
    | @cons p q _ _ hpq _ ih =>
      rw [List.forall_mem_cons] at h
      rw [ih h.2, Prod.ext hpq.1.symm (h.1 _ hpq.2)]

/-- A value without parts is what it is. -/
theorem rigid_leaf {v : Value} (h : v.kind ∉ [.array, .map, .union, .record]) : v.Rigid := by
  intro w hw
  cases hw with
  | refl => rfl
  | array | map | union | record => simp [kind] at h

theorem rigid_resolveSymbol {symbols : List String} {default : Option String} {t : String}
    {r : Value} (h : resolveSymbol symbols default t = .ok r) : r.Rigid := by
  obtain ⟨i, u, rfl⟩ := resolveSymbol_enum h
  exact rigid_leaf (by simp [kind])

theorem rigid_resolveDecimal {base : DecimalBase} {precision : Nat} {b : Bytes} {r : Value}
    (h : resolveDecimal base precision b = .ok r) : r.Rigid := by
  obtain ⟨-, -, h⟩ := Outcome.bind_eq_ok.mp h
  obtain ⟨-, -, ⟨⟩⟩ := Outcome.bind_eq_ok.mp h
  exact rigid_leaf (by simp [kind])

theorem rigid_resolveLeaf {v r : Value} {s : Schema} (h : resolveLeaf v s = .ok r) : r.Rigid := by
  unfold resolveLeaf at h
  split at h
  -- Most results are built at sight, and none of them has parts.
  all_goals try (cases h <;> exact rigid_leaf (by simp [kind]))
  case h_18 | h_19 =>
    unfold resolveText at h
    split at h <;> cases h
    exact rigid_leaf (by simp [kind])
  case h_20 | h_29 | h_31 | h_34 | h_36 =>
    split at h <;> cases h
    exact rigid_leaf (by simp [kind])
  case h_22 | h_23 => exact rigid_resolveSymbol h
  case h_24 | h_25 | h_26 => exact rigid_resolveDecimal h
  case h_27 => obtain ⟨-, -, ⟨⟩⟩ := Outcome.bind_eq_ok.mp h

end Value

/-- The fitting gives nothing with a map in it where there is no schema for maps. -/
def Fitting.Rigid (f : Fitting) : Prop :=
  ∀ {names : Names} {ns : Namespace} {s : Schema} {r : Value}, names.Mapless → s.isMapless →
    f names ns s = .ok r → r.Rigid

def Fallback.Rigid (f : Fallback) : Prop :=
  ∀ {names : Names} {ns : Namespace} {field : Field Schema} {r : Value}, names.Mapless →
    field.schema.isMapless → f names ns field = .ok r → r.Rigid

namespace Value

section Meeting

variable {p : Nat → Fitting}

theorem meetDirect_rigid (hp : ∀ n, (p n).Rigid) (layers : Nat) : (meetDirect p layers).Rigid := by
  intro names ns s r hnames hs h
  cases s with
  | ref name =>
    simp only [meetDirect] at h
    split at h
    · exact hp _ hnames (hnames.find? ‹_›) h
    · cases h
  | _ => exact hp _ hnames hs h

theorem meet_rigid (hp : ∀ n, (p n).Rigid) (kind : Kind) : (meet kind p).Rigid := by
  intro names ns s r hnames hs h
  unfold meet at h
  split at h
  · obtain ⟨⟨i, branch⟩, hchoose, h⟩ := Outcome.bind_eq_ok.mp h
    obtain ⟨w, hmeet, ⟨⟩⟩ := Outcome.bind_eq_ok.mp h
    have hbranch := Schema.isMapless_branch hs (List.mem_of_getElem? (chooseBranch_ok hchoose))
    exact rigid_union (meetDirect_rigid hp 1 hnames hbranch hmeet)
  · exact meetDirect_rigid hp 0 hnames hs h

end Meeting

section Parts

variable {names : Names} {ns : Namespace} {r : Value}

theorem resolveItems_rigid {s : Schema} {ps : List Fitting} (hps : ∀ p ∈ ps, p.Rigid)
    (hnames : names.Mapless) (hs : s.isMapless) (h : resolveItems names ns s ps = .ok r) :
    r.Rigid := by
  obtain ⟨vs, hvs, ⟨⟩⟩ := Outcome.bind_eq_ok.mp h
  refine rigid_array fun v hv => ?_
  obtain ⟨p, hp, hv⟩ := Outcome.exists_of_mem_mapM hvs hv
  exact hps p hp hnames hs hv

theorem resolveBytes_rigid {ps : List Fitting} (h : resolveBytes ps = .ok r) : r.Rigid := by
  obtain ⟨b, -, ⟨⟩⟩ := Outcome.bind_eq_ok.mp h
  exact rigid_leaf (by simp [kind])

theorem resolveFields_rigid {fallback : Fallback} {name : Name} {fields : List (Field Schema)}
    {ps : List (String × Fitting)} (hfallback : fallback.Rigid) (hps : ∀ p ∈ ps, p.2.Rigid)
    (hnames : names.Mapless) (hs : (Schema.record name fields).isMapless)
    (h : resolveFields fallback names ns fields ps = .ok r) : r.Rigid := by
  obtain ⟨vs, hvs, ⟨⟩⟩ := Outcome.bind_eq_ok.mp h
  refine rigid_record fun q hq => ?_
  obtain ⟨field, hfield, hq⟩ := Outcome.exists_of_mem_mapM hvs hq
  have hschema := Schema.isMapless_field hs hfield
  split at hq
  · rename_i entry hentry
    obtain ⟨v, hv, ⟨⟩⟩ := Outcome.bind_eq_ok.mp hq
    obtain ⟨l₁, l₂, rfl, -⟩ := List.lookup_eq_some_iff.mp hentry
    exact hps (field.name, entry) (by simp) hnames hschema hv
  · obtain ⟨v, hv, ⟨⟩⟩ := Outcome.bind_eq_ok.mp hq
    exact hfallback hnames hschema hv

end Parts

mutual

theorem plain_rigid {fallback : Fallback} (hf : fallback.Rigid) (v : Value) (layers : Nat) :
    (plain fallback v layers).Rigid := by
  intro names ns s r hnames hs h
  have hleaf : resolveLeaf v s = .ok r → r.Rigid := rigid_resolveLeaf
  cases v with
  | union i v =>
    cases layers with
    | zero => exact hleaf h
    | succ layers => exact plain_rigid hf v layers hnames hs h
  | array items =>
    cases s with
    | array schema =>
      exact resolveItems_rigid (fittings_rigid hf items) hnames (Schema.isMapless_items hs) h
    | bytes => exact resolveBytes_rigid h
    | _ => exact hleaf h
  | map entries =>
    cases s with
    | map schema => cases hs
    | record name fields =>
      exact resolveFields_rigid hf (entryFittings_rigid hf entries) hnames hs h
    | _ => exact hleaf h
  | record entries =>
    cases s with
    | record name fields =>
      exact resolveFields_rigid hf
        (fun p hp => entryFittings_rigid hf entries p (List.mem_reverse.mp hp)) hnames hs h
    | _ => exact hleaf h
  | _ => exact hleaf h

theorem fittings_rigid {fallback : Fallback} (hf : fallback.Rigid) (items : List Value) :
    ∀ p ∈ fittings fallback items, p.Rigid := by
  cases items with
  | nil => nofun
  | cons v rest =>
    intro p hp
    rcases List.mem_cons.mp hp with rfl | hp
    · exact meet_rigid (plain_rigid hf v) _
    · exact fittings_rigid hf rest p hp

theorem entryFittings_rigid {fallback : Fallback} (hf : fallback.Rigid)
    (entries : List (String × Value)) : ∀ p ∈ entryFittings fallback entries, p.2.Rigid := by
  cases entries with
  | nil => nofun
  | cons q rest =>
    intro p hp
    rcases List.mem_cons.mp hp with rfl | hp
    · exact meet_rigid (plain_rigid hf q.2) _
    · exact entryFittings_rigid hf rest p hp

end

theorem fit_rigid {fallback : Fallback} (hf : fallback.Rigid) (v : Value) :
    (v.fit fallback).Rigid :=
  meet_rigid (plain_rigid hf v) _

end Value

namespace Fallback

theorem ofFallback_rigid {inner : Fallback} (hinner : inner.Rigid) : (ofFallback inner).Rigid := by
  intro names ns field r hnames hs h
  unfold ofFallback at h
  split at h
  · cases h
  · simp only at h
    -- whatever the default is made into first, it meets the schema of the field in the end
    split at h <;> obtain ⟨w, -, h⟩ := Outcome.bind_eq_ok.mp h <;>
      exact Value.fit_rigid hinner w hnames hs h

theorem ofDepth_rigid (depth : Nat) : (ofDepth depth).Rigid := by
  induction depth with
  | zero => nofun
  | succ depth ih => exact ofFallback_rigid ih

end Fallback

/-! ## The same form in every order -/

/-- Two fittings that come to the same wherever there is no schema for maps. -/
def Fitting.Same (p q : Fitting) : Prop :=
  ∀ {names : Names} {ns : Namespace} {s : Schema}, names.Mapless → s.isMapless →
    p names ns s = q names ns s

namespace Value

section Meeting

variable {p q : Nat → Fitting} {names : Names}

theorem meetDirect_same (h : ∀ n, (p n).Same (q n)) (layers : Nat) :
    (meetDirect p layers).Same (meetDirect q layers) := by
  intro names ns s hnames hs
  cases s with
  | ref name =>
    simp only [meetDirect]
    split
    · exact h _ hnames (hnames.find? ‹_›)
    · rfl
  | _ => exact h _ hnames hs

theorem searchBranch_same (h : ∀ n, (p n).Same (q n)) (hnames : names.Mapless) (ns : Namespace)
    (i : Nat) {branches : List Schema} (hs : ∀ s ∈ branches, s.isMapless) :
    searchBranch p ns names i branches = searchBranch q ns names i branches := by
  induction branches generalizing names i with
  | nil => rfl
  | cons branch rest ih =>
    rw [List.forall_mem_cons] at hs
    rw [searchBranch, searchBranch]
    split
    · rfl
    · have hknown := Schema.mapless_append hs.1 ‹_› hnames
      simp only [meetDirect_same h 1 hknown hs.1, ih hknown _ hs.2]

theorem meet_same (h : ∀ n, (p n).Same (q n)) (kind : Kind) : (meet kind p).Same (meet kind q) := by
  intro names ns s hnames hs
  have hdirect : meetDirect p 0 names ns s = meetDirect q 0 names ns s :=
    meetDirect_same h 0 hnames hs
  cases s with
  | union branches =>
    have hbranch : ∀ s ∈ branches, s.isMapless := fun s hin => Schema.isMapless_branch hs hin
    have hchoose :
        chooseBranch kind p names ns branches = chooseBranch kind q names ns branches := by
      unfold chooseBranch
      rw [searchBranch_same h hnames ns 0 hbranch]
    rw [meet, meet, hchoose]
    cases hchosen : chooseBranch kind q names ns branches with
    | error stop => rfl
    | ok chosen =>
      obtain ⟨i, branch⟩ := chosen
      have hin := hbranch branch (List.mem_of_getElem? (chooseBranch_ok hchosen))
      exact congrArg (· >>= fun w => pure (union i w)) (meetDirect_same h 1 hnames hin)
  | _ => exact hdirect

end Meeting

section Parts

variable {names : Names} {ns : Namespace}

theorem mapM_eq_of_forall₂ {σ τ ε β : Type} {f : σ → Except ε β} {g : τ → Except ε β} {xs : List σ}
    {ys : List τ} (h : List.Forall₂ (fun x y => f x = g y) xs ys) : xs.mapM f = ys.mapM g := by
  induction h with
  | nil => rfl
  | cons hxy _ ih => rw [List.mapM_cons, List.mapM_cons, hxy, ih]

theorem resolveItems_same {s : Schema} {ps qs : List Fitting} (h : List.Forall₂ Fitting.Same ps qs)
    (hnames : names.Mapless) (hs : s.isMapless) :
    resolveItems names ns s ps = resolveItems names ns s qs :=
  congrArg (· >>= _) (mapM_eq_of_forall₂ (h.imp fun _ _ hpq => hpq hnames hs))

theorem resolveBytes_same {ps qs : List Fitting} (h : List.Forall₂ Fitting.Same ps qs) :
    resolveBytes ps = resolveBytes qs :=
  congrArg (· >>= _) (mapM_eq_of_forall₂ (h.imp fun _ _ hpq =>
    congrArg (· >>= toByte) (hpq (Names.only_nil _) rfl)))

theorem resolveFields_same {ps qs : List (String × Fitting)}
    (h : ∀ name, Option.Rel Fitting.Same (ps.lookup name) (qs.lookup name)) (fallback : Fallback)
    {name : Name} {fields : List (Field Schema)} (hnames : names.Mapless)
    (hs : (Schema.record name fields).isMapless) :
    resolveFields fallback names ns fields ps = resolveFields fallback names ns fields qs := by
  refine congrArg (· >>= _) (Outcome.mapM_congr fun field hfield => ?_)
  have hentry := h field.name
  generalize ps.lookup field.name = p at hentry
  generalize qs.lookup field.name = q at hentry
  cases hentry with
  | none => rfl
  | @some p q hpq =>
    have hfit : p names ns field.schema = q names ns field.schema :=
      hpq hnames (Schema.isMapless_field hs hfield)
    exact congrArg (· >>= fun v => pure (field.name, v)) hfit

end Parts

theorem fit_same_of_plain {fallback : Fallback} {v w : Value} (hvw : Rearranged v w)
    (h : ∀ layers, (plain fallback v layers).Same (plain fallback w layers)) :
    (v.fit fallback).Same (w.fit fallback) := by
  rw [fit, fit, hvw.content_kind_eq]
  exact meet_same h _

theorem entryFittings_same {fallback : Fallback} {es fs : List (String × Value)}
    (h : EntriesRelated (fun v w => (v.fit fallback).Same (w.fit fallback)) es fs) :
    EntriesRelated Fitting.Same (entryFittings fallback es) (entryFittings fallback fs) := by
  rw [entryFittings_eq_map, entryFittings_eq_map]
  exact h.mapValues

theorem plain_same (fallback : Fallback) {v w : Value} (h : Rearranged v w) (layers : Nat) :
    (plain fallback v layers).Same (plain fallback w layers) := by
  induction h generalizing layers with
  | refl v => exact fun _ _ => rfl
  | @array items items' hlen hparts ih =>
    have hfittings : List.Forall₂ Fitting.Same (fittings fallback items)
        (fittings fallback items') := by
      rw [fittings_eq_map, fittings_eq_map, List.forall₂_map_left_iff, List.forall₂_map_right_iff]
      exact forall₂_of_zip hlen fun p hp => fit_same_of_plain (hparts p hp) (ih p hp)
    intro names ns s hnames hs
    cases s with
    | array schema => exact resolveItems_same hfittings hnames (Schema.isMapless_items hs)
    | bytes => exact resolveBytes_same hfittings
    | _ => rfl
  | @map entries entries' listed hnames hparts horder ih =>
    have hfittings := entryFittings_same (entriesRelated_of_zip hnames fun p hp =>
      fit_same_of_plain (hparts p hp) (ih p hp))
    have hreordered :
        Reordered (entryFittings fallback entries') (entryFittings fallback listed) := by
      rw [entryFittings_eq_map, entryFittings_eq_map]
      exact horder.mapValues _
    intro names ns s hnames hs
    cases s with
    | map schema => cases hs
    | record name fields =>
      refine resolveFields_same (fun key => ?_) fallback hnames hs
      rw [← hreordered.lookup key]
      exact hfittings.lookup key
    | _ => rfl
  | @union i v w _ ih =>
    intro names ns s hnames hs
    cases layers with
    | zero => cases s <;> rfl
    | succ layers => exact ih layers hnames hs
  | record hnames hparts ih =>
    have hfittings := entryFittings_same (entriesRelated_of_zip hnames fun p hp =>
      fit_same_of_plain (hparts p hp) (ih p hp))
    intro names ns s hnames hs
    cases s with
    | record name fields =>
      have hreversed : EntriesRelated Fitting.Same _ _ := List.forall₂_reverse_iff.mpr hfittings
      exact resolveFields_same hreversed.lookup fallback hnames hs
    | _ => rfl

/-- Where no schema is for maps, their order has no part in what a value becomes. -/
theorem fit_same (fallback : Fallback) {v w : Value} (h : Rearranged v w) :
    (v.fit fallback).Same (w.fit fallback) :=
  fit_same_of_plain h (plain_same fallback h)

end Value

end RecordTape
