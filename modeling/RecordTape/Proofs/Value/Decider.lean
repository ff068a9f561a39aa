import RecordTape.Proofs.Schema.Rebinding
import RecordTape.Proofs.Value.Descent
/-!
# The branch that an integer is given to

Which branch of a union an integer is given to does not depend on the integer. It is the long if the
union has one, and otherwise the first branch that does not turn integers away
(`Schema.decider?`, `Value.fit_union_integer`). Whether the integer is in the range of that branch,
and whether another one could hold it, does not count.
-/

namespace RecordTape

namespace Schema

/-- An integer in the form of a schema that takes integers. An int takes the low 32 bits. -/
def ofInteger (n : Int) : Schema → Option Value
  | .int => some (.int (Int32.ofInt n))
  | .long => some (.long (Int64.ofInt n))
  | .float => some (.float (Binary.ofInt n))
  | .double => some (.double (Binary.ofInt n))
  | .longTime t => some (.longTime t (Int64.ofInt n))
  | _ => none

/-- The integer is in the range of the schema, if that is an int. Other schemas that take integers
take any of 64 bits. -/
def Holds (n : Int) (s : Schema) : Prop := s = .int → -int32Bound ≤ n ∧ n < int32Bound

def baseFault? (s : Schema) : Option Fault :=
  match s.checkBase with
  | .error (.fault f) => some f
  | _ => none

theorem baseFault?_eq_some {s : Schema} {f : Fault} :
    s.baseFault? = some f ↔ s.checkBase = .error (.fault f) := by
  unfold baseFault?
  rcases s.checkBase with (e | g) | _ <;> simp

/-- Integers are not turned away: they have a form under the schema, or all meet one fault. -/
def answers (s : Schema) : Bool := (s.ofInteger 0).isSome || s.baseFault?.isSome

/-- The branch that integers are given to and its position: the long if there is one, and otherwise
the first branch that does not turn them away. -/
def decider? (branches : List Schema) : Option (Schema × Nat) :=
  (branches.zipIdx.find? fun p => p.1.kind = .long).or
    (branches.zipIdx.find? fun p => p.1.answers)

theorem eq_long {s : Schema} (h : s.kind = .long) : s = .long := by
  cases s <;> first | rfl | cases h

theorem ofInteger_or_baseFault? {s : Schema} (n : Int) (h : s.answers) :
    (∃ v, s.ofInteger n = some v) ∨ ∃ f, s.baseFault? = some f := by
  rw [answers, Bool.or_eq_true, Option.isSome_iff_exists, Option.isSome_iff_exists] at h
  refine h.imp_left fun ⟨v, hv⟩ => ?_
  cases s <;> first | cases hv; done | exact ⟨_, rfl⟩

theorem answers_of_ofInteger {s : Schema} {n : Int} {v : Value} (h : s.ofInteger n = some v) :
    s.answers := by
  cases s <;> first | rfl | cases h

theorem answers_of_baseFault? {s : Schema} {f : Fault} (h : s.baseFault? = some f) : s.answers := by
  rw [answers, h, Option.isSome_some, Bool.or_true]

section Decider

variable {branches : List Schema} {s : Schema} {i : Nat}

theorem decider?_eq_some (h : decider? branches = some (s, i)) :
    branches[i]? = some s ∧ s.answers := by
  rcases Option.or_eq_some_iff.mp h with hlong | ⟨-, hfirst⟩
  · have hkind := List.find?_some hlong
    refine ⟨List.mk_mem_zipIdx_iff_getElem?.mp (List.mem_of_find?_eq_some hlong), ?_⟩
    rw [show s = .long from eq_long (of_decide_eq_true hkind)]
    rfl
  · have hanswers := List.find?_some hfirst
    exact ⟨List.mk_mem_zipIdx_iff_getElem?.mp (List.mem_of_find?_eq_some hfirst), hanswers⟩

theorem exists_decider? (hs : s ∈ branches) (h : s.answers) :
    ∃ t i, decider? branches = some (t, i) := by
  cases hfind : decider? branches with
  | some p => exact ⟨p.1, p.2, rfl⟩
  | none =>
    obtain ⟨k, hk⟩ := List.mem_iff_getElem?.mp hs
    have hnone := List.find?_eq_none.mp (Option.or_eq_none_iff.mp hfind).2
    exact absurd h (hnone (s, k) (List.mk_mem_zipIdx_iff_getElem?.mpr hk))

/-- A long decides wherever it stands. -/
theorem decider?_of_long (h : .long ∈ branches) : ∃ i, decider? branches = some (.long, i) := by
  obtain ⟨k, hk⟩ := List.mem_iff_getElem?.mp h
  cases hfind : branches.zipIdx.find? fun p => p.1.kind = .long with
  | some p =>
    have hkind := List.find?_some hfind
    exact ⟨p.2, by rw [decider?, hfind, ← eq_long (of_decide_eq_true hkind)]; rfl⟩
  | none =>
    have hnone := List.find?_eq_none.mp hfind (.long, k) (List.mk_mem_zipIdx_iff_getElem?.mpr hk)
    exact absurd (decide_eq_true rfl) hnone

end Decider

/-- Each schema can be bound by itself among these names and any more. -/
def Bindable (names : Names) (ns : Namespace) (schemas : List Schema) : Prop :=
  ∀ s ∈ schemas, ∀ known, names.Below known → ∃ fresh, s.bind known ns [] = .ok fresh

theorem Bindable.of_names {branches : List Schema} {names : Names}
    (h : (union branches).names = .ok names) : Bindable names none branches :=
  fun _ hs _ hknown => bind_branch_again h hknown (by nofun) hs

end Schema

/-- The names stand for definitions. -/
def Names.Definitions (names : Names) : Prop := ∀ p ∈ names, p.2.definedName.isSome

theorem Names.Definitions.of_names {s : Schema} {names : Names} (h : s.names = .ok names) :
    names.Definitions := fun p hp => (Schema.within_of_names h p hp).2

namespace Value

/-! ## Integers and single schemas -/

section Leaf

variable {n : Int} {s : Schema}

theorem resolveLeaf_of_ofInteger {v : Value} (hlow : -int64Bound ≤ n) (hhigh : n < int64Bound)
    (h : s.ofInteger n = some v) : resolveLeaf (.long (Int64.ofInt n)) s = .ok v := by
  have hexact : (Int64.ofInt n).toInt = n := Int64.toInt_ofInt_of_le hlow hhigh
  cases s with
  | int => cases h; simp only [resolveLeaf, Int64.toInt32_ofInt]; rfl
  | long | longTime t => cases h; rfl
  | float | double => cases h; simp only [resolveLeaf, hexact]; rfl
  | _ => cases h

/-- Where integers have no form, only a decimal can end in anything but a mismatch. -/
theorem resolveLeaf_of_none (m : Int64) (h : s.ofInteger 0 = none) :
    ∃ e, resolveLeaf (.long m) s = s.checkBase >>= fun _ => .fail e := by
  cases s <;> first | exact ⟨_, rfl⟩ | cases h

theorem resolveLeaf_of_baseFault? (m : Int64) {f : Fault} (h : s.baseFault? = some f) :
    resolveLeaf (.long m) s = .crash f := by
  have hnone : s.ofInteger 0 = none := by cases s <;> first | rfl | cases h
  obtain ⟨e, he⟩ := resolveLeaf_of_none m hnone
  rw [he, Schema.baseFault?_eq_some.mp h]
  rfl

theorem resolveLeaf_of_not_answers (m : Int64) (h : s.answers = false) :
    ∃ e, resolveLeaf (.long m) s = .fail e := by
  rw [Schema.answers, Bool.or_eq_false_iff, Option.isSome_eq_false_iff, Option.isSome_eq_false_iff,
    Option.isNone_iff_eq_none, Option.isNone_iff_eq_none] at h
  obtain ⟨e, he⟩ := resolveLeaf_of_none m h.1
  rw [he]
  cases hbase : s.checkBase with
  | ok _ => exact ⟨e, rfl⟩
  | error stop =>
    cases stop with
    | error e => exact ⟨e, rfl⟩
    | fault f => cases h.2.symm.trans (Schema.baseFault?_eq_some.mpr hbase)

end Leaf

/-! ## Integers and branches -/

section Search

variable (fallback : Fallback) (m : Int64) {names : Names} {ns : Namespace} {s : Schema}
  {branches : List Schema}

theorem meetDirect_of_answers (layers : Nat) (names : Names) (ns : Namespace) (h : s.answers) :
    meetDirect (plain fallback (.long m)) layers names ns s = resolveLeaf (.long m) s := by
  cases s with
  | ref name => cases h
  | _ => rfl

/-- References stand for definitions, and these turn integers away as well. -/
theorem meetDirect_of_not_answers (layers : Nat) (ns : Namespace) (hnames : names.Definitions)
    (h : s.answers = false) :
    ∃ e, meetDirect (plain fallback (.long m)) layers names ns s = .fail e := by
  cases s with
  | ref name =>
    simp only [meetDirect]
    split
    · rename_i target htarget
      obtain ⟨l₁, l₂, hmem, -⟩ := List.lookup_eq_some_iff.mp htarget
      have hdefined := hnames (name.qualify ns, target) (by simp [hmem])
      cases target with
      | record _ _ | enum _ _ _ | fixed _ _ => exact ⟨_, rfl⟩
      | _ => cases hdefined
    · exact ⟨_, rfl⟩
  | _ => exact resolveLeaf_of_not_answers m h

/-- The search ends at the first branch that does not turn integers away. No branch before it is in
the way, since each can be bound among the names found by then. -/
theorem searchBranch_integer (hnames : names.Definitions)
    (hbind : Schema.Bindable names ns branches) (i : Nat) :
    searchBranch (plain fallback (.long m)) ns names i branches =
      match (branches.zipIdx i).find? fun p => p.1.answers with
      | none => .fail .noBranch
      | some (s, k) => (fun _ => (k, s)) <$> resolveLeaf (.long m) s := by
  induction branches generalizing names i with
  | nil => rfl
  | cons branch rest ih =>
    obtain ⟨found, hfound⟩ := hbind branch List.mem_cons_self names (.refl names)
    have hbelow : names.Below (found ++ names) := Names.below_append_left names found
    have hnames' : Names.Definitions (found ++ names) := by
      intro p hp
      rcases List.mem_append.mp hp with hp | hp
      · exact ((Schema.within_of_bind branch hfound p hp).resolve_left (by nofun)).2
      · exact hnames p hp
    rw [searchBranch, hfound, List.zipIdx_cons, List.find?_cons]
    cases hanswers : branch.answers with
    | true =>
      simp only [meetDirect_of_answers fallback m 1 _ _ hanswers]
      rcases Schema.ofInteger_or_baseFault? m.toInt hanswers with ⟨v, hv⟩ | ⟨f, hf⟩
      · have hleaf := resolveLeaf_of_ofInteger m.le_toInt m.toInt_lt hv
        rw [Int64.ofInt_toInt] at hleaf
        rw [hleaf]
        rfl
      · rw [resolveLeaf_of_baseFault? m hf]
        rfl
    | false =>
      obtain ⟨e, he⟩ := meetDirect_of_not_answers fallback m 1 (branch.ns <|> ns) hnames' hanswers
      simp only [he]
      exact ih hnames' (fun s hs known hknown =>
        hbind s (List.mem_cons_of_mem _ hs) known (hbelow.trans hknown)) (i + 1)

/-- The branch of the kind of a long goes before the search. -/
theorem chooseBranch_integer (hnames : names.Definitions)
    (hbind : Schema.Bindable names ns branches) :
    chooseBranch .long (plain fallback (.long m)) names ns branches =
      match Schema.decider? branches with
      | none => .fail .noBranch
      | some (s, i) => (fun _ => (i, s)) <$> resolveLeaf (.long m) s := by
  have hkind : (fun p : Schema × Nat => decide (p.1.kind = .long ∧ !p.1.kind.isNamed)) =
      fun p => decide (p.1.kind = .long) := by
    funext p
    by_cases h : p.1.kind = .long <;> simp [h, Kind.isNamed]
  have hlong : branches.zipIdx.find? (fun p => decide (p.1.kind = .long ∧ !p.1.kind.isNamed)) =
      branches.zipIdx.find? fun p => p.1.kind = .long := by rw [hkind]
  rw [chooseBranch, Schema.decider?, hlong]
  cases hfind : branches.zipIdx.find? fun p => p.1.kind = .long with
  | some p =>
    obtain ⟨s, i⟩ := p
    have hs := List.find?_some hfind
    rw [show s = .long from Schema.eq_long (of_decide_eq_true hs)]
    rfl
  | none => exact searchBranch_integer fallback m hnames hbind 0

/-- An integer meets a union as its decider. -/
theorem fit_union_integer (hnames : (Schema.union branches).names = .ok names) :
    (Value.long m).fit fallback names none (.union branches) =
      match Schema.decider? branches with
      | none => .fail .noBranch
      | some (s, i) => Value.union i <$> resolveLeaf (.long m) s := by
  show (chooseBranch .long (plain fallback (.long m)) names none branches >>= fun p =>
    meetDirect (plain fallback (.long m)) 1 names none p.2 >>= fun r =>
      pure (Value.union p.1 r)) = _
  rw [chooseBranch_integer fallback m (.of_names hnames) (.of_names hnames)]
  cases hdecider : Schema.decider? branches with
  | none => rfl
  | some p =>
    obtain ⟨s, i⟩ := p
    have hmeet :=
      meetDirect_of_answers fallback m 1 names none (Schema.decider?_eq_some hdecider).2
    simp only
    cases hleaf : resolveLeaf (.long m) s with
    | error stop => rfl
    | ok r =>
      show (meetDirect _ 1 names none s >>= _) = _
      rw [hmeet, hleaf]
      rfl

end Search

end Value
end RecordTape
