import RecordTape.Proofs.Value.Rearranged
/-!
# Orders of two values that go together

Two values that differ in a part hold the same maps elsewhere, so that an order of the one goes with
an order of the other. `Paired R v v'` says that whatever order comes up for one of the two, there
is one for the other so that the two are related; it is carried through arrays, maps and records.
-/

namespace RecordTape

/-- Whatever orders come up for the one, there are some for the other that go with them. Maps that
are listed as they were made go together. -/
structure Arrangement.Matching (P : Arrangement → Arrangement → Prop) : Prop where
  listed : P .listed .listed
  forth : ∀ o, ∃ o', P o o'
  back : ∀ o', ∃ o, P o o'

namespace Value

/-- Each order of the first value has one of the second to which it is related. -/
def Mirrored (R : Value → Value → Prop) (v v' : Value) : Prop :=
  ∀ w, Rearranged v w → ∃ w', Rearranged v' w' ∧ R w w'

/-- The values are related, and each order of one of them is to an order of the other. -/
structure Paired (R : Value → Value → Prop) (v v' : Value) : Prop where
  listed : R v v'
  forth : Mirrored R v v'
  back : Mirrored (flip R) v' v

namespace Mirrored

variable {R S : Value → Value → Prop} {v w w' : Value}

theorem refl (hR : ∀ v, R v v) (v : Value) : Mirrored R v v := fun w hw => ⟨w, hw, hR w⟩

theorem imp (h : Mirrored S w w') (hSR : ∀ u u', S u u' → R u u') : Mirrored R w w' := by
  intro u hu
  obtain ⟨u', hu', hS⟩ := h u hu
  exact ⟨u', hu', hSR u u' hS⟩

/-- One item is followed, the others are the same. -/
theorem item (h : Mirrored S w w') (before after : List Value)
    (hR : ∀ before' u u' after', before'.length = before.length → S u u' →
      R (.array (before' ++ u :: after')) (.array (before' ++ u' :: after'))) :
    Mirrored R (.array (before ++ w :: after)) (.array (before ++ w' :: after)) := by
  intro z hz
  obtain ⟨zs, rfl, hzs⟩ := hz.exists_items
  obtain ⟨before', rest, hbefore, hrest, rfl⟩ := exists_append_of_forall₂ hzs
  obtain ⟨u, after', hu, hafter, rfl⟩ := List.forall₂_cons_left_iff.mp hrest
  obtain ⟨u', hu', hS⟩ := h u hu
  exact ⟨.array (before' ++ u' :: after'), .ofItems (List.rel_append hbefore (.cons hu' hafter)),
    hR before' u u' after' hbefore.length_eq.symm hS⟩

/-- Entries of the same names, followed one by one. -/
theorem entries {S : String → Value → Value → Prop} {es es' fs : List (String × Value)}
    (h : List.Forall₂ (fun p p' => p.1 = p'.1 ∧ Mirrored (S p.1) p.2 p'.2) es es')
    (hfs : EntriesRelated Rearranged es fs) :
    ∃ fs', EntriesRelated Rearranged es' fs' ∧
      List.Forall₂ (fun p p' => p.1 = p'.1 ∧ S p.1 p.2 p'.2) fs fs' := by
  induction h generalizing fs with
  | nil => cases hfs; exact ⟨[], .nil, .nil⟩
  | @cons p p' es es' hp _ ih =>
    obtain ⟨q, rest, hq, hrest, rfl⟩ := List.forall₂_cons_left_iff.mp hfs
    obtain ⟨fs', hfs', hrelated⟩ := ih hrest
    obtain ⟨u', hu', hS⟩ := hp.2 q.2 hq.2
    exact ⟨(p'.1, u') :: fs', .cons ⟨rfl, hu'⟩ hfs',
      .cons ⟨hq.1.symm.trans hp.1, hq.1 ▸ hS⟩ hrelated⟩

theorem map {S : String → Value → Value → Prop} {es es' : List (String × Value)}
    (h : List.Forall₂ (fun p p' => p.1 = p'.1 ∧ Mirrored (S p.1) p.2 p'.2) es es')
    (hR : ∀ gs gs', (gs.map (·.1)).Perm (es.map (·.1)) →
      List.Forall₂ (fun p p' => p.1 = p'.1 ∧ S p.1 p.2 p'.2) gs gs' → R (.map gs) (.map gs')) :
    Mirrored R (.map es) (.map es') := by
  intro z hz
  obtain ⟨fs, gs, rfl, hfs, horder⟩ := hz.exists_entries
  obtain ⟨fs', hfs', hrelated⟩ := entries h hfs
  obtain ⟨gs', hgs', horder'⟩ := horder.symm.comm And.left hrelated
  have hnames : (gs.map (·.1)).Perm (es.map (·.1)) :=
    EntriesRelated.map_fst hfs ▸ (horder.perm.map _).symm
  exact ⟨.map gs', .ofEntries hfs' horder'.symm, hR gs gs' hnames hgs'⟩

theorem record {S : String → Value → Value → Prop} {es es' : List (String × Value)}
    (h : List.Forall₂ (fun p p' => p.1 = p'.1 ∧ Mirrored (S p.1) p.2 p'.2) es es')
    (hR : ∀ gs gs', List.Forall₂ (fun p p' => p.1 = p'.1 ∧ S p.1 p.2 p'.2) gs gs' →
      R (.record gs) (.record gs')) : Mirrored R (.record es) (.record es') := by
  intro z hz
  obtain ⟨fs, rfl, hfs⟩ := hz.exists_fields
  obtain ⟨fs', hfs', hrelated⟩ := entries h hfs
  exact ⟨.record fs', .ofFields hfs', hR fs fs' hrelated⟩

end Mirrored

namespace Paired

variable {R S : Value → Value → Prop} {v v' w w' : Value}

theorem refl (hR : ∀ v, R v v) (v : Value) : Paired R v v :=
  ⟨hR v, .refl hR v, .refl (R := flip R) hR v⟩

theorem imp (h : Paired S w w') (hSR : ∀ u u', S u u' → R u u') : Paired R w w' :=
  ⟨hSR _ _ h.listed, h.forth.imp hSR, h.back.imp fun _ _ => hSR _ _⟩

theorem item (h : Paired S w w') (before after : List Value)
    (hR : ∀ before' u u' after', before'.length = before.length → S u u' →
      R (.array (before' ++ u :: after')) (.array (before' ++ u' :: after'))) :
    Paired R (.array (before ++ w :: after)) (.array (before ++ w' :: after)) where
  listed := hR before w w' after rfl h.listed
  forth := h.forth.item before after hR
  back := h.back.item before after fun before' u' u after' hlen hS =>
    hR before' u u' after' hlen hS

section Entries

variable {S : String → Value → Value → Prop} {es es' : List (String × Value)}
  (h : List.Forall₂ (fun p p' => p.1 = p'.1 ∧ Paired (S p.1) p.2 p'.2) es es')
include h

theorem entries_listed : List.Forall₂ (fun p p' => p.1 = p'.1 ∧ S p.1 p.2 p'.2) es es' :=
  h.imp fun _ _ hp => ⟨hp.1, hp.2.listed⟩

theorem entries_forth :
    List.Forall₂ (fun p p' => p.1 = p'.1 ∧ Mirrored (S p.1) p.2 p'.2) es es' :=
  h.imp fun _ _ hp => ⟨hp.1, hp.2.forth⟩

theorem entries_back :
    List.Forall₂ (fun p' p => p'.1 = p.1 ∧ Mirrored (flip (S p'.1)) p'.2 p.2) es' es :=
  h.flip.imp fun _ _ hp => ⟨hp.1.symm, hp.1 ▸ hp.2.back⟩

omit h in
theorem names_eq {gs gs' : List (String × Value)}
    (hgs : List.Forall₂ (fun p p' => p.1 = p'.1 ∧ S p.1 p.2 p'.2) gs gs') :
    gs.map (·.1) = gs'.map (·.1) :=
  EntriesRelated.map_fst (R := fun _ _ => True) (hgs.imp fun _ _ hp => ⟨hp.1, trivial⟩)

omit h in
theorem entries_flip {gs gs' : List (String × Value)}
    (hgs : List.Forall₂ (fun p' p => p'.1 = p.1 ∧ flip (S p'.1) p'.2 p.2) gs' gs) :
    List.Forall₂ (fun p p' => p.1 = p'.1 ∧ S p.1 p.2 p'.2) gs gs' :=
  hgs.flip.imp fun _ _ hp => ⟨hp.1.symm, hp.1 ▸ hp.2⟩

theorem map (hR : ∀ gs gs', (gs.map (·.1)).Perm (es.map (·.1)) →
    List.Forall₂ (fun p p' => p.1 = p'.1 ∧ S p.1 p.2 p'.2) gs gs' → R (.map gs) (.map gs')) :
    Paired R (.map es) (.map es') where
  listed := hR es es' (.refl _) (entries_listed h)
  forth := .map (entries_forth h) hR
  back := by
    refine .map (S := fun k => flip (S k)) (entries_back h) fun gs' gs hnames hgs => ?_
    refine hR gs gs' ?_ (entries_flip hgs)
    rw [names_eq (entries_flip hgs), names_eq (entries_listed h)]
    exact hnames

theorem record (hR : ∀ gs gs', List.Forall₂ (fun p p' => p.1 = p'.1 ∧ S p.1 p.2 p'.2) gs gs' →
    R (.record gs) (.record gs')) : Paired R (.record es) (.record es') where
  listed := hR es es' (entries_listed h)
  forth := .record (entries_forth h) hR
  back := .record (S := fun k => flip (S k)) (entries_back h)
    fun gs' gs hgs => hR gs gs' (entries_flip hgs)

end Entries

/-- Values whose orders go together, as they are arranged on two occasions. -/
theorem matching {P : Arrangement → Arrangement → Prop} (h : Paired R v v')
    (hP : ∀ o o' : Arrangement, R (o.arrange v) (o'.arrange v') → P o o') :
    Arrangement.Matching P where
  listed := hP _ _ h.listed
  forth o := by
    obtain ⟨w', hw', hR⟩ := h.forth _ (o.rearranges v)
    obtain ⟨o', rfl⟩ := Arrangement.exists_arrange hw'
    exact ⟨o', hP o o' hR⟩
  back o' := by
    obtain ⟨w, hw, hR⟩ := h.back _ (o'.rearranges v')
    obtain ⟨o, rfl⟩ := Arrangement.exists_arrange hw
    exact ⟨o, hP o o' hR⟩

end Paired
end Value

/-- Orders of which nothing is asked go together. -/
theorem Arrangement.Matching.of_forall {P : Arrangement → Arrangement → Prop} (h : ∀ o o', P o o') :
    Arrangement.Matching P :=
  ⟨h _ _, fun o => ⟨.listed, h o _⟩, fun o' => ⟨.listed, h _ o'⟩⟩

end RecordTape
