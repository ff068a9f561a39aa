import RecordTape.Proofs.Value.Descent
/-!
# Schemas that a value faces

A value that meets a schema is given to schemas that are neither references nor unions: to the
definition behind a reference, and at a union to the branch that is chosen and, if the branches were
searched, to those tried before it. `faced` lists these places in the order in which they are asked.
What becomes of the value is settled there: two values that fare alike at all of them fare alike
(`fit_congr_faced`), and what a value becomes, it became at one of them (`exists_faced_of_fit`).
-/

namespace RecordTape

/-- A schema where it stands: in a namespace, with the names that are known there. -/
structure Site where
  names : Names
  ns : Namespace
  schema : Schema

namespace Site

/-- Where a reference leads, if its name is known; any other schema is taken as it stands. -/
def behind (p : Site) : List Site :=
  match p.schema with
  | .ref name =>
    let full := name.qualify p.ns
    (p.names.find? full).toList.map fun target => ⟨p.names, full.ns, target⟩
  | _ => [p]

end Site

namespace Value

/-- How a value meets the schema at a site. -/
def fitAt (fallback : Fallback) (v : Value) (p : Site) : Outcome Mismatch Value :=
  v.fit fallback p.names p.ns p.schema

/-- What a value without options becomes at a site without reference or union. -/
def plainAt (fallback : Fallback) (v : Value) (p : Site) : Outcome Mismatch Value :=
  plain fallback v 1 p.names p.ns p.schema

/-- The branches of a union at which the search asks, up to the first that the value meets. -/
def tried (fallback : Fallback) (v : Value) (ns : Namespace) : Names → List Schema → List Site
  | _, [] => []
  | names, branch :: rest =>
    match branch.bind names ns [] with
    | .error _ => []
    | .ok found =>
      let site : Site := ⟨found ++ names, branch.ns <|> ns, branch⟩
      match meetDirect (plain fallback v) 1 site.names site.ns branch with
      | .error (.error _) => site.behind ++ tried fallback v ns site.names rest
      | _ => site.behind

/-- The sites at which a value is asked for a form while it meets the schema at a site. -/
def faced (fallback : Fallback) (v : Value) (p : Site) : List Site :=
  match p.schema with
  | .union branches =>
    let searched :=
      if branches.any fun b => b.kind = v.kind ∧ !b.kind.isNamed then []
      else tried fallback v p.ns p.names branches
    let chosen :=
      match chooseBranch v.kind (plain fallback v) p.names p.ns branches with
      | .ok (_, branch) => Site.behind ⟨p.names, p.ns, branch⟩
      | .error _ => []
    searched ++ chosen
  | _ => p.behind

theorem faced_of_not_union (fallback : Fallback) (v : Value) {p : Site}
    (hp : p.schema.kind ≠ .union) : faced fallback v p = p.behind := by
  obtain ⟨names, ns, s⟩ := p
  cases s <;> first | rfl | exact absurd rfl hp

theorem meet_of_not_union (kind : Kind) (plain : Nat → Fitting) (names : Names) (ns : Namespace)
    {s : Schema} (hs : s.kind ≠ .union) :
    meet kind plain names ns s = meetDirect plain 0 names ns s := by
  cases s <;> first | rfl | exact absurd rfl hs

/-! ## Two values at the same sites -/

section Congr

variable {fallback : Fallback} {v v' : Value} {names : Names} {ns : Namespace}

theorem meetDirect_congr_behind (p : Site) (hv : v.isUnion = false) (hv' : v'.isUnion = false)
    (h : ∀ q ∈ p.behind, v'.plainAt fallback q = v.plainAt fallback q) (layers : Nat) :
    meetDirect (plain fallback v') layers p.names p.ns p.schema =
      meetDirect (plain fallback v) layers p.names p.ns p.schema := by
  obtain ⟨names, ns, s⟩ := p
  rw [meetDirect_of_not_union fallback hv layers 0, meetDirect_of_not_union fallback hv' layers 0]
  cases s with
  | ref name =>
    simp only [meetDirect]
    cases hfind : names.find? (name.qualify ns) with
    | none => rfl
    | some target =>
      have htarget := h ⟨names, (name.qualify ns).ns, target⟩ (by simp [Site.behind, hfind])
      simp only [plain_of_not_union fallback hv (0 + 2) 1,
        plain_of_not_union fallback hv' (0 + 2) 1]
      exact htarget
  | _ => exact h _ (List.mem_singleton.mpr rfl)

/-- The search asks at the same branches and ends at the same one. -/
theorem searchBranch_congr_tried {branches : List Schema} (hv : v.isUnion = false)
    (hv' : v'.isUnion = false)
    (h : ∀ q ∈ tried fallback v ns names branches, v'.plainAt fallback q = v.plainAt fallback q)
    (i : Nat) :
    searchBranch (plain fallback v') ns names i branches =
      searchBranch (plain fallback v) ns names i branches := by
  induction branches generalizing names i with
  | nil => rfl
  | cons branch rest ih =>
    rw [tried] at h
    rw [searchBranch, searchBranch]
    cases hbind : branch.bind names ns [] with
    | error e => rfl
    | ok found =>
      simp only [hbind] at h
      have hfirst : meetDirect (plain fallback v') 1 (found ++ names) (branch.ns <|> ns) branch =
          meetDirect (plain fallback v) 1 (found ++ names) (branch.ns <|> ns) branch := by
        refine meetDirect_congr_behind ⟨_, _, branch⟩ hv hv' (fun q hq => h q ?_) 1
        split
        · exact List.mem_append_left _ hq
        · exact hq
      simp only [hfirst]
      split
      · rfl
      · rfl
      · rename_i hfailed
        simp only [hfailed] at h
        exact ih (fun q hq => h q (List.mem_append_right _ hq)) (i + 1)

theorem find?_kind_eq_none {kind : Kind} {branches : List Schema} :
    branches.zipIdx.find? (fun p => decide (p.1.kind = kind ∧ !p.1.kind.isNamed)) = none ↔
      (branches.any fun b => decide (b.kind = kind ∧ !b.kind.isNamed)) = false := by
  rw [List.find?_eq_none, List.any_eq_false]
  constructor
  · intro h b hb
    obtain ⟨i, hi⟩ := List.mem_iff_getElem?.mp hb
    exact h (b, i) (List.mk_mem_zipIdx_iff_getElem?.mpr hi)
  · intro h p hp
    exact h p.1 (List.mem_of_getElem? (List.mem_zipIdx_iff_getElem?.mp hp))

theorem chooseBranch_congr_tried {branches : List Schema} (hv : v.isUnion = false)
    (hv' : v'.isUnion = false) (hkind : v'.kind = v.kind)
    (h : (branches.any fun b => b.kind = v.kind ∧ !b.kind.isNamed) = false →
      ∀ q ∈ tried fallback v ns names branches, v'.plainAt fallback q = v.plainAt fallback q) :
    chooseBranch v'.kind (plain fallback v') names ns branches =
      chooseBranch v.kind (plain fallback v) names ns branches := by
  rw [chooseBranch, chooseBranch, hkind]
  split
  · rfl
  · rename_i hnone
    exact searchBranch_congr_tried hv hv' (h (find?_kind_eq_none.mp hnone)) 0

/-- Two values of one kind that fare alike at every site the first one faces fare alike. -/
theorem fit_congr_faced {p : Site} (hv : v.isUnion = false) (hv' : v'.isUnion = false)
    (hkind : v'.kind = v.kind)
    (h : ∀ q ∈ faced fallback v p, v'.plainAt fallback q = v.plainAt fallback q) :
    v'.fitAt fallback p = v.fitAt fallback p := by
  obtain ⟨names, ns, s⟩ := p
  rw [fitAt, fitAt, fit, fit, content_of_not_union hv, content_of_not_union hv']
  cases s with
  | union branches =>
    have hchoose : chooseBranch v'.kind (plain fallback v') names ns branches =
        chooseBranch v.kind (plain fallback v) names ns branches := by
      refine chooseBranch_congr_tried hv hv' hkind fun hnone q hq => h q ?_
      simp only [faced, hnone]
      exact List.mem_append_left _ hq
    simp only [meet, hchoose]
    cases hchosen : chooseBranch v.kind (plain fallback v) names ns branches with
    | error stop => rfl
    | ok p =>
      obtain ⟨i, branch⟩ := p
      have hbranch := meetDirect_congr_behind ⟨names, ns, branch⟩ hv hv'
        (fun q hq => h q (by simp only [faced, hchosen]; exact List.mem_append_right _ hq)) 1
      show (meetDirect _ 1 names ns branch >>= _) = (meetDirect _ 1 names ns branch >>= _)
      rw [hbranch]
  | _ =>
    rw [faced_of_not_union fallback v (by rintro ⟨⟩)] at h
    exact meetDirect_congr_behind _ hv hv' h 0

end Congr

/-! ## Where a form comes from -/

section Sound

variable {fallback : Fallback} {v r : Value}

theorem exists_behind_of_meetDirect (p : Site) {layers : Nat} (hv : v.isUnion = false)
    (h : meetDirect (plain fallback v) layers p.names p.ns p.schema = .ok r) :
    ∃ q ∈ p.behind, v.plainAt fallback q = .ok r := by
  obtain ⟨names, ns, s⟩ := p
  rw [meetDirect_of_not_union fallback hv layers 0] at h
  cases s with
  | ref name =>
    simp only [meetDirect] at h
    split at h
    · rename_i target hfind
      refine ⟨⟨names, (name.qualify ns).ns, target⟩, by simp [Site.behind, hfind], ?_⟩
      rwa [plain_of_not_union fallback hv (0 + 2) 1] at h
    · cases h
  | _ => exact ⟨_, List.mem_singleton.mpr rfl, h⟩

/-- What a value became, it became at a site it faced, up to the union around it. -/
theorem exists_faced_of_fit {p : Site} (hv : v.isUnion = false) (h : v.fitAt fallback p = .ok r) :
    ∃ q ∈ faced fallback v p, ∃ u, v.plainAt fallback q = .ok u ∧
      (r = u ∨ ∃ i, r = .union i u) := by
  obtain ⟨names, ns, s⟩ := p
  rw [fitAt, fit, content_of_not_union hv] at h
  cases s with
  | union branches =>
    obtain ⟨⟨i, branch⟩, hchosen, h⟩ := Outcome.bind_eq_ok.mp h
    obtain ⟨u, hu, ⟨⟩⟩ := Outcome.bind_eq_ok.mp h
    obtain ⟨q, hq, hplain⟩ := exists_behind_of_meetDirect ⟨names, ns, branch⟩ hv hu
    refine ⟨q, ?_, u, hplain, .inr ⟨i, rfl⟩⟩
    simp only [faced, hchosen]
    exact List.mem_append_right _ hq
  | _ =>
    rw [meet_of_not_union _ _ _ _ (by rintro ⟨⟩)] at h
    rw [faced_of_not_union fallback v (by rintro ⟨⟩)]
    obtain ⟨q, hq, hplain⟩ := exists_behind_of_meetDirect _ hv h
    exact ⟨q, hq, r, hplain, .inl rfl⟩

end Sound

end Value
end RecordTape
