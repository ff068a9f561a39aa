import RecordTape.Narrowing
import RecordTape.Proofs.Tied
import RecordTape.Proofs.Value.Rearranged
import RecordTape.Proofs.Value.Transparent
/-!
# Forms in any order

Values that are the same but for the order of maps take forms that are, or both take none
(`fit_inStep`), and a long is narrowed in both or in none (`checkNarrowing_ok_iff`). A map is
resolved entry by entry in its order, so the order decides which entry resolution stops at; the
fields of a record are looked up by name, and no order shows.
-/

namespace RecordTape

open Outcome (Tied InStep)

/-- Two fittings that come to the same under every schema, but for the order of maps. -/
def Fitting.InStep (p q : Fitting) : Prop :=
  ∀ (names : Names) (ns : Namespace) (s : Schema),
    Outcome.InStep Rearranged (p names ns s) (q names ns s)

theorem Fitting.InStep.refl (p : Fitting) : p.InStep p :=
  fun _ _ _ => Tied.refl Rearranged.refl _

namespace Value

/-! ## References and unions -/

section Meeting

variable {p q : Nat → Fitting}

theorem meetDirect_inStep (h : ∀ n, (p n).InStep (q n)) (layers : Nat) :
    (meetDirect p layers).InStep (meetDirect q layers) := by
  intro names ns s
  cases s with
  | ref name =>
    simp only [meetDirect]
    split
    · exact h _ _ _ _
    · exact .error _ _
  | _ => exact h _ _ _ _

/-- A branch that one of the values meets and not the other makes the other stop with a fault, or
the search would go on to another branch. -/
theorem searchBranch_inStep (h : ∀ n, (p n).InStep (q n)) (ns : Namespace) (names : Names) (i : Nat)
    (branches : List Schema) :
    InStep Eq (searchBranch p ns names i branches) (searchBranch q ns names i branches) := by
  induction branches generalizing names i with
  | nil => exact .error _ _
  | cons branch rest ih =>
    rw [searchBranch, searchBranch]
    split
    · exact .error _ _
    · rename_i found _
      have hbranch := meetDirect_inStep h 1 (found ++ names) (branch.ns <|> ns) branch
      rcases hbranch.ends with ⟨_, _, hx, hy, -⟩ | ⟨_, _, hx, hy⟩ | ⟨_, hx⟩ | ⟨_, hy⟩
      · simp only [hx, hy]
        exact .ok rfl
      · simp only [hx, hy]
        exact ih _ _
      · simp only [hx]
        exact .left _ rfl
      · simp only [hy]
        exact .right _ rfl

theorem chooseBranch_inStep (h : ∀ n, (p n).InStep (q n)) (kind : Kind) (names : Names)
    (ns : Namespace) (branches : List Schema) :
    InStep Eq (chooseBranch kind p names ns branches) (chooseBranch kind q names ns branches) := by
  unfold chooseBranch
  split
  · exact .ok rfl
  · exact searchBranch_inStep h ns names 0 branches

theorem meet_inStep (h : ∀ n, (p n).InStep (q n)) (kind : Kind) :
    (meet kind p).InStep (meet kind q) := by
  intro names ns s
  have hdirect := meetDirect_inStep h 0 names ns s
  cases s with
  | union branches =>
    refine (chooseBranch_inStep h kind names ns branches).bind ?_
    rintro ⟨i, branch⟩ _ rfl
    exact (meetDirect_inStep h 1 names ns branch).bind fun v w hvw => .ok (.union i hvw)
  | _ => exact hdirect

end Meeting

/-! ## Values with parts -/

section Parts

variable {names : Names} {ns : Namespace} {s : Schema}

theorem resolveItems_inStep {ps qs : List Fitting} (h : List.Forall₂ Fitting.InStep ps qs) :
    InStep Rearranged (resolveItems names ns s ps) (resolveItems names ns s qs) :=
  (Tied.mapM (h.imp fun _ _ hpq => hpq names ns s)).bind fun _ _ hvs => .ok (.ofItems hvs)

theorem toByte_eq {v w : Value} (h : Rearranged v w) : toByte v = toByte w := by
  cases h <;> rfl

theorem resolveBytes_inStep {ps qs : List Fitting} (h : List.Forall₂ Fitting.InStep ps qs) :
    InStep Rearranged (resolveBytes ps) (resolveBytes qs) := by
  have hitems : InStep (List.Forall₂ Eq) (ps.mapM fun p => do toByte (← p [] none .int))
      (qs.mapM fun q => do toByte (← q [] none .int)) :=
    Tied.mapM (h.imp fun p q hpq => (hpq [] none .int).bind fun v w hvw => by
      rw [toByte_eq hvw]
      exact Tied.refl (fun _ => rfl) _)
  refine hitems.bind fun bs bs' hbs => ?_
  rw [List.forall₂_eq_eq_eq] at hbs
  exact .ok (hbs ▸ .refl _)

/-- Entries that change places do so in the map that is made of them. -/
theorem resolveEntries_inStep {ps qs rs : List (String × Fitting)}
    (h : EntriesRelated Fitting.InStep ps qs) (horder : Reordered qs rs) :
    InStep Rearranged (resolveEntries names ns s ps) (resolveEntries names ns s rs) := by
  have hsteps : List.Forall₂ (fun (p q : String × Fitting) =>
      InStep (fun e f : String × Value => e.1 = f.1 ∧ Rearranged e.2 f.2)
        (do return (p.1, ← p.2 names ns s)) (do return (q.1, ← q.2 names ns s))) ps qs :=
    h.imp fun p q hpq => (hpq.2 names ns s).bind fun v w hvw => .ok ⟨hpq.1, hvw⟩
  rcases horder with rfl | ⟨hperm, hnames⟩
  · exact (Tied.mapM hsteps).bind fun vs ws hvs => .ok (.ofEntries hvs (.refl ws))
  · refine (Tied.mapM_perm hsteps hperm).given.bind ?_
    rintro vs us ⟨hvs, -, ws, hrelated, hperm'⟩
    -- each entry that is made has the name of the one it is made of
    have hmade : ps.map (·.1) = vs.map (·.1) := Outcome.map_eq_of_mapM hvs fun p _ e he => by
      obtain ⟨v, -, ⟨⟩⟩ := Outcome.bind_eq_ok.mp he
      rfl
    have hws : EntriesRelated Rearranged vs ws := hrelated
    have hdistinct : (ws.map (·.1)).Nodup := by
      rw [← hws.map_fst, ← hmade, h.map_fst]
      exact hnames
    exact .ok (.ofEntries hws (.inr ⟨hperm', hdistinct⟩))

theorem resolveFields_inStep {ps qs : List (String × Fitting)}
    (h : ∀ name, Option.Rel Fitting.InStep (ps.lookup name) (qs.lookup name))
    (fallback : Fallback) (fields : List (Field Schema)) :
    InStep Rearranged (resolveFields fallback names ns fields ps)
      (resolveFields fallback names ns fields qs) := by
  refine (Tied.mapM (List.forall₂_same.mpr fun field _ => ?step)).bind
    fun vs ws hvs => .ok (.ofFields hvs)
  have hentry := h field.name
  generalize ps.lookup field.name = p at hentry
  generalize qs.lookup field.name = q at hentry
  cases hentry with
  | none => exact Tied.refl (fun _ => ⟨rfl, .refl _⟩) _
  | some hpq => exact (hpq names ns field.schema).bind fun v w hvw => .ok ⟨rfl, hvw⟩

end Parts

/-! ## All values -/

theorem fit_inStep_of_plain {fallback : Fallback} {v w : Value} (hvw : Rearranged v w)
    (h : ∀ layers, (plain fallback v layers).InStep (plain fallback w layers)) :
    (v.fit fallback).InStep (w.fit fallback) := by
  rw [fit, fit, hvw.content_kind_eq]
  exact meet_inStep h _

theorem entryFittings_inStep {fallback : Fallback} {es fs : List (String × Value)}
    (h : EntriesRelated (fun v w => (v.fit fallback).InStep (w.fit fallback)) es fs) :
    EntriesRelated Fitting.InStep (entryFittings fallback es) (entryFittings fallback fs) := by
  rw [entryFittings_eq_map, entryFittings_eq_map]
  exact h.mapValues

theorem plain_inStep (fallback : Fallback) {v w : Value} (h : Rearranged v w) (layers : Nat) :
    (plain fallback v layers).InStep (plain fallback w layers) := by
  induction h generalizing layers with
  | refl v => exact .refl _
  | @array items items' hlen hparts ih =>
    have hfittings : List.Forall₂ Fitting.InStep (fittings fallback items)
        (fittings fallback items') := by
      rw [fittings_eq_map, fittings_eq_map, List.forall₂_map_left_iff, List.forall₂_map_right_iff]
      exact forall₂_of_zip hlen fun p hp => fit_inStep_of_plain (hparts p hp) (ih p hp)
    intro names ns s
    cases s with
    | array schema => exact resolveItems_inStep hfittings
    | bytes => exact resolveBytes_inStep hfittings
    | _ => exact Tied.refl .refl _
  | @map entries entries' listed hnames hparts horder ih =>
    have hfittings := entryFittings_inStep (entriesRelated_of_zip hnames fun p hp =>
      fit_inStep_of_plain (hparts p hp) (ih p hp))
    have hreordered :
        Reordered (entryFittings fallback entries') (entryFittings fallback listed) := by
      rw [entryFittings_eq_map, entryFittings_eq_map]
      exact horder.mapValues _
    intro names ns s
    cases s with
    | map schema => exact resolveEntries_inStep hfittings hreordered
    | record name fields =>
      refine resolveFields_inStep (fun key => ?_) fallback fields
      rw [← hreordered.lookup key]
      exact hfittings.lookup key
    | _ => exact Tied.refl .refl _
  | @union i v w _ ih =>
    intro names ns s
    cases layers with
    | zero => cases s <;> exact Tied.refl .refl _
    | succ layers => exact ih layers names ns s
  | record hnames hparts ih =>
    have hfittings := entryFittings_inStep (entriesRelated_of_zip hnames fun p hp =>
      fit_inStep_of_plain (hparts p hp) (ih p hp))
    intro names ns s
    cases s with
    | record name fields =>
      have hreversed : EntriesRelated Fitting.InStep _ _ := List.forall₂_reverse_iff.mpr hfittings
      exact resolveFields_inStep hreversed.lookup fallback fields
    | _ => exact Tied.refl .refl _

/-- A value and one that lists its maps in another order take the same form but for the order of
maps, or both take none. -/
theorem fit_inStep (fallback : Fallback) {v w : Value} (h : Rearranged v w) :
    (v.fit fallback).InStep (w.fit fallback) :=
  fit_inStep_of_plain h (plain_inStep fallback h)

/-! ## Longs -/

theorem anyLong_eq (items : List Value) : anyLong items = items.any containsLong := by
  induction items with
  | nil => rfl
  | cons v rest ih => rw [anyLong, ih, List.any_cons]

theorem anyEntryLong_eq (entries : List (String × Value)) :
    anyEntryLong entries = entries.any (·.2.containsLong) := by
  induction entries with
  | nil => rfl
  | cons p rest ih => rw [anyEntryLong, ih, List.any_cons]

theorem any_congr {σ τ : Type} {f : σ → Bool} {g : τ → Bool} {xs : List σ} {ys : List τ}
    (h : List.Forall₂ (fun x y => f x = g y) xs ys) : xs.any f = ys.any g := by
  induction h with
  | nil => rfl
  | cons hxy _ ih => rw [List.any_cons, List.any_cons, hxy, ih]

theorem containsLong_eq {v w : Value} (h : Rearranged v w) : v.containsLong = w.containsLong := by
  induction h with
  | refl v => rfl
  | array hlen _ ih =>
    rw [containsLong, containsLong, anyLong_eq, anyLong_eq]
    exact any_congr (forall₂_of_zip hlen ih)
  | map hnames _ horder ih =>
    rw [containsLong, containsLong, anyEntryLong_eq, anyEntryLong_eq, ← horder.perm.any_eq]
    have hentries : EntriesRelated (fun v w : Value => v.containsLong = w.containsLong) _ _ :=
      entriesRelated_of_zip hnames ih
    exact any_congr (hentries.imp fun _ _ h => h.2)
  | union i _ ih => exact ih
  | record hnames _ ih =>
    rw [containsLong, containsLong, anyEntryLong_eq, anyEntryLong_eq]
    have hentries : EntriesRelated (fun v w : Value => v.containsLong = w.containsLong) _ _ :=
      entriesRelated_of_zip hnames ih
    exact any_congr (hentries.imp fun _ _ h => h.2)

theorem checkEntries_eq_ok {given : Value} {rs : List (String × Value)} :
    checkEntries given rs = .ok () ↔
      ∀ p ∈ rs, ∀ g ∈ entry? p.1 given, g.checkNarrowing p.2 = .ok () := by
  induction rs with
  | nil => exact iff_of_true rfl nofun
  | cons p rs ih =>
    obtain ⟨name, r⟩ := p
    rw [checkEntries, List.forall_mem_cons, ← ih]
    cases entry? name given with
    | none => simp [bind, Except.bind]
    | some g =>
      simp only [Option.mem_some_iff, forall_eq']
      constructor
      · intro h
        obtain ⟨⟨⟩, hhead, hrest⟩ := Outcome.bind_eq_ok.mp h
        exact ⟨hhead, hrest⟩
      · exact fun h => Outcome.bind_eq_ok.mpr ⟨(), h.1, h.2⟩

theorem entry?_rearranged {v w : Value} (h : Rearranged v w) (name : String) :
    Option.Rel Rearranged ( entry? name v) ( entry? name w) := by
  cases h with
  | refl v =>
    cases entry? name v with
    | none => exact .none
    | some g => exact .some (.refl g)
  | map hnames hparts horder =>
    rw [ entry?, entry?, ← horder.lookup]
    exact (entriesRelated_of_zip hnames hparts).lookup name
  | record hnames hparts => exact (entriesRelated_of_zip hnames hparts).lookup name
  | array | union => exact .none

mutual

/-- The check does not see in which order the maps of the given value are: it looks their entries
up. -/
theorem checkNarrowing_eq {v w : Value} (h : Rearranged v w) (r : Value) :
    v.checkNarrowing r = w.checkNarrowing r := by
  cases r with
  | int i | intTime t i => cases h <;> rfl
  | union k r => exact checkNarrowing_eq h.content r
  | array rs =>
    cases h with
    | refl => rfl
    | array hlen hparts => exact checkItems_eq (forall₂_of_zip hlen hparts) rs
    | _ => rfl
  | map rs =>
    have hentries := entry?_rearranged h
    cases h with
    | refl => rfl
    | map => exact checkEntries_eq hentries rs
    | _ => rfl
  | record rs =>
    have hentries := entry?_rearranged h
    cases h with
    | refl => rfl
    | map | record => exact checkEntries_eq hentries rs
    | _ => rfl
  | _ => rfl
termination_by structural r

theorem checkItems_eq {vs ws : List Value} (h : List.Forall₂ Rearranged vs ws) (rs : List Value) :
    checkItems vs rs = checkItems ws rs := by
  cases rs with
  | nil => cases h <;> rfl
  | cons r rs =>
    cases h with
    | nil => rfl
    | cons hvw hrest =>
      rw [checkItems, checkItems, checkNarrowing_eq hvw r, checkItems_eq hrest rs]
termination_by structural rs

theorem checkEntries_eq {v w : Value}
    (h : ∀ name, Option.Rel Rearranged ( entry? name v) ( entry? name w))
    (rs : List (String × Value)) : checkEntries v rs = checkEntries w rs := by
  cases rs with
  | nil => rfl
  | cons p rs =>
    obtain ⟨name, r⟩ := p
    have hentry := h name
    rw [checkEntries, checkEntries, checkEntries_eq h rs]
    generalize entry? name v = g at hentry
    generalize entry? name w = g' at hentry
    cases hentry with
    | none => rfl
    | some hrel => simp only [checkNarrowing_eq hrel r]
termination_by structural rs

end

/-- Whatever passes the check against the first value passes it against the second one. -/
def Lenient (r r' : Value) : Prop := ∀ v : Value, v.checkNarrowing r = .ok () →
  v.checkNarrowing r' = .ok ()

/-- The check does not see in which order the maps of a resolved value are. -/
theorem lenient_of_rearranged {r r' : Value} (h : Rearranged r r') : Lenient r r' := by
  induction h with
  | refl => exact fun _ hok => hok
  | @array rs rs' hlen hparts ih =>
    have hrelated : List.Forall₂ Lenient rs rs' := forall₂_of_zip hlen ih
    clear ih hlen hparts
    intro v hok
    cases v with
    | array givens =>
      show checkItems givens rs' = .ok ()
      replace hok : checkItems givens rs = .ok () := hok
      induction hrelated generalizing givens with
      | nil => exact hok
      | cons hr _ ih =>
        cases givens with
        | nil => rfl
        | cons g givens =>
          obtain ⟨⟨⟩, hhead, hok⟩ := Outcome.bind_eq_ok.mp hok
          exact Outcome.bind_eq_ok.mpr ⟨(), hr g hhead, ih givens hok⟩
    | _ => rfl
  | map hnames _ horder ih =>
    have hrelated : EntriesRelated Lenient _ _ := entriesRelated_of_zip hnames ih
    intro v hok
    cases v with
    | map givens =>
      refine checkEntries_eq_ok.mpr fun q hq g hg => ?_
      obtain ⟨p, hp, hname, hpq⟩ := exists_of_mem_right hrelated (horder.perm.mem_iff.mpr hq)
      exact hpq g (checkEntries_eq_ok.mp hok p hp g (hname ▸ hg))
    | _ => rfl
  | union i _ ih => exact fun v hok => ih v.content hok
  | record hnames _ ih =>
    have hrelated : EntriesRelated Lenient _ _ := entriesRelated_of_zip hnames ih
    intro v hok
    cases v with
    | map givens | record givens =>
      refine checkEntries_eq_ok.mpr fun q hq g hg => ?_
      obtain ⟨p, hp, hname, hpq⟩ := exists_of_mem_right hrelated hq
      exact hpq g (checkEntries_eq_ok.mp hok p hp g (hname ▸ hg))
    | _ => rfl

/-- A long is narrowed in every order or in none. -/
theorem checkNarrowing_ok_iff {v w r r' : Value} (h : Rearranged v w) (hr : Rearranged r r') :
    v.checkNarrowing r = .ok () ↔ w.checkNarrowing r' = .ok () :=
  ⟨fun hok => checkNarrowing_eq h r' ▸ lenient_of_rearranged hr v hok,
    fun hok => checkNarrowing_eq h r ▸ lenient_of_rearranged hr.symm w hok⟩

end Value
end RecordTape
