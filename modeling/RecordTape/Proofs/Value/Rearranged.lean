import Mathlib.Data.List.Perm.Basic
import RecordTape.Proofs.Value.Entries
import RecordTape.Proofs.Value.Form
import RecordTape.Value.Arrangement
/-!
# Values but for the order of maps

To be the same but for the order of entries is an equivalence, `Rearranged.symm` and
`Rearranged.trans`. It is read off part by part: a relation that holds of all parts side by side is
a `List.Forall₂` of items and an `EntriesRelated` of entries. For a map the entries come side by
side first and change places afterwards, and `Reordered.comm` lets them change places before.
-/

namespace RecordTape

/-! ## Parts side by side -/

section Parts

variable {σ τ : Type} {R : σ → τ → Prop}

theorem forall₂_of_zip {xs : List σ} {ys : List τ} (hlen : xs.length = ys.length)
    (h : ∀ p ∈ xs.zip ys, R p.1 p.2) : List.Forall₂ R xs ys :=
  List.forall₂_iff_zip.mpr ⟨hlen, fun {a b} hp => h (a, b) hp⟩

theorem entriesRelated_of_zip {xs : List (String × σ)} {ys : List (String × τ)}
    (hnames : xs.map (·.1) = ys.map (·.1)) (h : ∀ p ∈ xs.zip ys, R p.1.2 p.2.2) :
    Value.EntriesRelated R xs ys := by
  have hlen : xs.length = ys.length := by simpa using congrArg List.length hnames
  refine forall₂_of_zip hlen fun p hp => ⟨?_, h p hp⟩
  obtain ⟨i, hi, rfl⟩ := List.mem_iff_getElem.mp hp
  simp only [List.length_zip, Nat.lt_min] at hi
  simpa [hi.1, hi.2] using congrArg (·[i]?) hnames

theorem zip_of_forall₂ {xs : List σ} {ys : List τ} (h : List.Forall₂ R xs ys) :
    ∀ p ∈ xs.zip ys, R p.1 p.2 := by
  rintro ⟨x, y⟩ hp
  exact (List.forall₂_iff_zip.mp h).2 hp

/-- What is beside something on both sides. -/
theorem forall₂_comp {ρ : Type} {S : τ → ρ → Prop} {T : σ → ρ → Prop} {xs : List σ} {ys : List τ}
    {zs : List ρ} (h : List.Forall₂ R xs ys) (h' : List.Forall₂ S ys zs)
    (hcomp : ∀ {x y z}, R x y → S y z → T x z) : List.Forall₂ T xs zs := by
  induction h generalizing zs with
  | nil => cases h'; exact .nil
  | cons hxy _ ih =>
    cases h' with
    | cons hyz hrest => exact .cons (hcomp hxy hyz) (ih hrest)

/-- What is beside two lists one after the other are two such lists. -/
theorem exists_append_of_forall₂ {xs xs' : List σ} {zs : List τ}
    (h : List.Forall₂ R (xs ++ xs') zs) :
    ∃ ys ys', List.Forall₂ R xs ys ∧ List.Forall₂ R xs' ys' ∧ zs = ys ++ ys' := by
  refine ⟨zs.take xs.length, zs.drop xs.length, ?_, ?_, (List.take_append_drop _ zs).symm⟩
  · simpa using List.forall₂_take xs.length h
  · simpa using List.forall₂_drop xs.length h

theorem exists_of_mem_right {xs : List σ} {ys : List τ} (h : List.Forall₂ R xs ys) {y : τ}
    (hy : y ∈ ys) : ∃ x ∈ xs, R x y := by
  obtain ⟨i, hi⟩ := List.mem_iff_getElem?.mp hy
  obtain ⟨x, hx, hxy⟩ := Value.exists_left_of_rel (Value.rel_getElem? h i) hi
  exact ⟨x, List.mem_of_getElem? hx, hxy⟩

end Parts

/-! ## Entries that change places -/

namespace Reordered

variable {α β : Type} {es fs gs : List (String × α)}

theorem refl (es : List (String × α)) : Reordered es es := .inl rfl

theorem perm (h : Reordered es fs) : es.Perm fs := by
  rcases h with rfl | ⟨h, -⟩
  · exact .refl _
  · exact h

theorem symm (h : Reordered es fs) : Reordered fs es := by
  rcases h with rfl | ⟨h, hnames⟩
  · exact .refl _
  · exact .inr ⟨h.symm, (h.map _).nodup_iff.mp hnames⟩

theorem trans (h : Reordered es fs) (h' : Reordered fs gs) : Reordered es gs := by
  rcases h with rfl | ⟨h, hnames⟩
  · exact h'
  · exact .inr ⟨h.trans h'.perm, hnames⟩

theorem lookup (h : Reordered es fs) (name : String) : es.lookup name = fs.lookup name := by
  rcases h with rfl | ⟨h, hnames⟩
  · rfl
  · exact Value.lookup_perm h hnames name

theorem nodup (h : Reordered es fs) (hnames : (es.map (·.1)).Nodup) : (fs.map (·.1)).Nodup :=
  (h.perm.map _).nodup_iff.mp hnames

theorem mapValues (h : Reordered es fs) (f : α → β) :
    Reordered (es.map fun p => (p.1, f p.2)) (fs.map fun p => (p.1, f p.2)) := by
  rcases h with rfl | ⟨h, hnames⟩
  · exact .refl _
  · refine .inr ⟨h.map _, ?_⟩
    rw [List.map_map]
    exact hnames

/-- Entries that change places can do so beside others, and before they meet them. -/
theorem comm {T : String × α → String × β → Prop} (hT : ∀ {p q}, T p q → p.1 = q.1)
    {hs : List (String × β)} (h : Reordered es fs) (hrelated : List.Forall₂ T fs hs) :
    ∃ gs, List.Forall₂ T es gs ∧ Reordered gs hs := by
  rcases h with rfl | ⟨h, hnames⟩
  · exact ⟨hs, hrelated, .refl _⟩
  · obtain ⟨gs, hgs, hperm⟩ := List.perm_comp_forall₂ h hrelated
    have hsame : es.map (·.1) = gs.map (·.1) := by
      rw [← List.forall₂_eq_eq_eq, List.forall₂_map_left_iff, List.forall₂_map_right_iff]
      exact hgs.imp fun _ _ => hT
    exact ⟨gs, hgs, .inr ⟨hperm, hsame ▸ hnames⟩⟩

end Reordered

/-! ## Values -/

namespace Rearranged

variable {v w u : Value}

/-- A map of entries that are side by side before they change places. -/
theorem ofEntries {es fs gs : List (String × Value)} (h : Value.EntriesRelated Rearranged es fs)
    (horder : Reordered fs gs) : Rearranged (.map es) (.map gs) :=
  .map h.map_fst (fun p hp => (zip_of_forall₂ h p hp).2) horder

theorem ofItems {xs ys : List Value} (h : List.Forall₂ Rearranged xs ys) :
    Rearranged (.array xs) (.array ys) :=
  .array h.length_eq (zip_of_forall₂ h)

theorem ofFields {es fs : List (String × Value)} (h : Value.EntriesRelated Rearranged es fs) :
    Rearranged (.record es) (.record fs) :=
  .record h.map_fst fun p hp => (zip_of_forall₂ h p hp).2

theorem symm (h : Rearranged v w) : Rearranged w v := by
  induction h with
  | refl v => exact .refl v
  | array hlen _ ih => exact .ofItems (forall₂_of_zip (R := flip Rearranged) hlen ih).flip
  | @map es fs gs hnames _ horder ih =>
    have hrelated : Value.EntriesRelated Rearranged fs es :=
      (entriesRelated_of_zip (R := flip Rearranged) hnames ih).flip.imp
        fun _ _ h => ⟨h.1.symm, h.2⟩
    obtain ⟨hs, hhs, horder'⟩ := horder.symm.comm And.left hrelated
    exact .ofEntries hhs horder'
  | union i _ ih => exact .union i ih
  | record hnames _ ih =>
    exact .ofFields ((entriesRelated_of_zip (R := flip Rearranged) hnames ih).flip.imp
      fun _ _ h => ⟨h.1.symm, h.2⟩)

theorem trans (h : Rearranged v w) (h' : Rearranged w u) : Rearranged v u := by
  induction h generalizing u with
  | refl v => exact h'
  | array hlen hparts ih =>
    cases h' with
    | refl => exact .array hlen hparts
    | array hlen' hparts' =>
      have hitems : List.Forall₂ (fun v w => ∀ {u}, Rearranged w u → Rearranged v u) _ _ :=
        forall₂_of_zip hlen fun p hp _ => ih p hp
      exact .ofItems (forall₂_comp hitems (forall₂_of_zip hlen' hparts') fun h h' => h h')
  | map hnames hparts horder ih =>
    cases h' with
    | refl => exact .map hnames hparts horder
    | map hnames' hparts' horder' =>
      obtain ⟨hs, hhs, hordered⟩ := horder.comm (T := fun p q => p.1 = q.1 ∧ Rearranged p.2 q.2)
        And.left (entriesRelated_of_zip hnames' hparts')
      have hentries :
          Value.EntriesRelated (fun v w => ∀ {u}, Rearranged w u → Rearranged v u) _ _ :=
        entriesRelated_of_zip hnames fun p hp _ => ih p hp
      exact .ofEntries (forall₂_comp hentries hhs fun h h' => ⟨h.1.trans h'.1, h.2 h'.2⟩)
        (hordered.trans horder')
  | union i hvw ih =>
    cases h' with
    | refl => exact .union i hvw
    | union _ h' => exact .union i (ih h')
  | record hnames hparts ih =>
    cases h' with
    | refl => exact .record hnames hparts
    | record hnames' hparts' =>
      have hfields : Value.EntriesRelated (fun v w => ∀ {u}, Rearranged w u → Rearranged v u) _ _ :=
        entriesRelated_of_zip hnames fun p hp _ => ih p hp
      exact .ofFields (forall₂_comp hfields (entriesRelated_of_zip hnames' hparts')
        fun h h' => ⟨h.1.trans h'.1, h.2 h'.2⟩)

/-! ### What a value can be rearranged to -/

theorem exists_items {xs : List Value} (h : Rearranged (.array xs) w) :
    ∃ ys, w = .array ys ∧ List.Forall₂ Rearranged xs ys := by
  cases h with
  | refl => exact ⟨xs, rfl, List.forall₂_same.mpr fun v _ => .refl v⟩
  | array hlen hparts => exact ⟨_, rfl, forall₂_of_zip hlen hparts⟩

theorem exists_entries {es : List (String × Value)} (h : Rearranged (.map es) w) :
    ∃ fs gs, w = .map gs ∧ Value.EntriesRelated Rearranged es fs ∧ Reordered fs gs := by
  cases h with
  | refl => exact ⟨es, es, rfl, List.forall₂_same.mpr fun p _ => ⟨rfl, .refl p.2⟩, .refl es⟩
  | map hnames hparts horder => exact ⟨_, _, rfl, entriesRelated_of_zip hnames hparts, horder⟩

theorem exists_fields {es : List (String × Value)} (h : Rearranged (.record es) w) :
    ∃ fs, w = .record fs ∧ Value.EntriesRelated Rearranged es fs := by
  cases h with
  | refl => exact ⟨es, rfl, List.forall₂_same.mpr fun p _ => ⟨rfl, .refl p.2⟩⟩
  | record hnames hparts => exact ⟨_, rfl, entriesRelated_of_zip hnames hparts⟩

theorem exists_content {i : Nat} (h : Rearranged (.union i v) w) :
    ∃ u, w = .union i u ∧ Rearranged v u := by
  cases h with
  | refl => exact ⟨v, rfl, .refl v⟩
  | union _ h => exact ⟨_, rfl, h⟩

theorem kind_eq (h : Rearranged v w) : v.kind = w.kind := by
  cases h <;> rfl

theorem content (h : Rearranged v w) : Rearranged v.content w.content := by
  cases h with
  | refl v => exact .refl _
  | array hlen hparts => exact .array hlen hparts
  | map hnames hparts horder => exact .map hnames hparts horder
  | union _ h => exact h
  | record hnames hparts => exact .record hnames hparts

theorem content_kind_eq (h : Rearranged v w) : v.content.kind = w.content.kind :=
  h.content.kind_eq

/-- The form of a schema has no order for the entries of maps. -/
theorem hasForm {sized : Bool} {names : Names} {s : Schema} (h : Rearranged v w)
    (hform : Value.HasForm sized names s v) : Value.HasForm sized names s w := by
  induction hform generalizing w with
  | array hlen hitems ih =>
    cases h with
    | refl => exact .array hlen hitems
    | array hlen' hparts =>
      refine .array (hlen' ▸ hlen) fun y hy => ?_
      obtain ⟨x, hx, hxy⟩ := exists_of_mem_right
        (forall₂_of_zip (R := fun x y => Rearranged x y) hlen' hparts) hy
      exact ih x hx hxy
  | map hlen hkeys htexts hentries ih =>
    cases h with
    | refl => exact .map hlen hkeys htexts hentries
    | map hnames hparts horder =>
      have hrelated := entriesRelated_of_zip hnames hparts
      have hback {q : String × Value} (hq : q ∈ _) := exists_of_mem_right hrelated
        (horder.perm.mem_iff.mpr hq)
      refine .map ?_ (horder.nodup (hnames ▸ hkeys)) (fun q hq => ?_) fun q hq => ?_
      · rw [← horder.perm.length_eq, ← hrelated.length_eq]
        exact hlen
      · obtain ⟨p, hp, hname, -⟩ := hback hq
        exact hname ▸ htexts p hp
      · obtain ⟨p, hp, -, hvalue⟩ := hback hq
        exact ih p hp hvalue
  | union hbranch hi hv ih =>
    cases h with
    | refl => exact .union hbranch hi hv
    | union _ h => exact .union hbranch hi (ih h)
  | record hnames hfields ih =>
    cases h with
    | refl => exact .record hnames hfields
    | record hnames' hparts =>
      have hform : List.Forall₂ (fun (f : Field Schema) (p : String × Value) =>
          ∀ {w}, Rearranged p.2 w → Value.HasForm sized names f.schema w) _ _ :=
        forall₂_of_zip (Value.HasForm.length_entries hnames).symm fun p hp _ => ih p hp
      have hform' : List.Forall₂ (fun (f : Field Schema) (q : String × Value) =>
          Value.HasForm sized names f.schema q.2) _ _ :=
        forall₂_comp hform (entriesRelated_of_zip hnames' hparts) fun h h' => h h'.2
      exact .record (hnames' ▸ hnames) (zip_of_forall₂ hform')
  | ref hfind _ ih => exact .ref hfind (ih h)
  | _ => cases h; constructor <;> assumption

end Rearranged

/-! ## Arrangements -/

namespace Value

mutual

def backwards : Value → Value
  | .array items => .array (backwardsItems items)
  | .map entries =>
    if (entries.map (·.1)).Nodup then .map (backwardsEntries entries).reverse
    else .map (backwardsEntries entries)
  | .union i v => .union i (backwards v)
  | .record fields => .record (backwardsEntries fields)
  | v => v

def backwardsItems : List Value → List Value
  | [] => []
  | v :: rest => backwards v :: backwardsItems rest

def backwardsEntries : List (String × Value) → List (String × Value)
  | [] => []
  | (name, v) :: rest => (name, backwards v) :: backwardsEntries rest

end

mutual

theorem rearranged_backwards (v : Value) : Rearranged v v.backwards := by
  cases v with
  | array items => exact .ofItems (rearranged_backwardsItems items)
  | map entries =>
    have hentries := rearranged_backwardsEntries entries
    rw [backwards]
    split
    · rename_i hnames
      exact .ofEntries hentries
        (.inr ⟨(List.reverse_perm _).symm, hentries.map_fst ▸ hnames⟩)
    · exact .ofEntries hentries (.refl _)
  | union i v => exact .union i (rearranged_backwards v)
  | record fields => exact .ofFields (rearranged_backwardsEntries fields)
  | _ => exact .refl _

theorem rearranged_backwardsItems (items : List Value) :
    List.Forall₂ Rearranged items (backwardsItems items) := by
  cases items with
  | nil => exact .nil
  | cons v rest => exact .cons (rearranged_backwards v) (rearranged_backwardsItems rest)

theorem rearranged_backwardsEntries (entries : List (String × Value)) :
    EntriesRelated Rearranged entries (backwardsEntries entries) := by
  cases entries with
  | nil => exact .nil
  | cons p rest =>
    exact .cons ⟨rfl, rearranged_backwards p.2⟩ (rearranged_backwardsEntries rest)

end

end Value

namespace Arrangement

/-- Maps the other way round than a value happens to list them. -/
def backwards : Arrangement := ⟨Value.backwards, Value.rearranged_backwards⟩

/-- Each order is that of some arrangement. -/
theorem exists_arrange {v w : Value} (h : Rearranged v w) :
    ∃ order : Arrangement, order.arrange v = w := by
  classical
  refine ⟨⟨fun u => if u = v then w else u, fun u => ?_⟩, if_pos rfl⟩
  split
  · rename_i heq
    exact heq ▸ h
  · exact .refl u

theorem hasForm {order : Arrangement} {sized : Bool} {names : Names} {s : Schema} {v : Value}
    (h : Value.HasForm sized names s v) : Value.HasForm sized names s (order.arrange v) :=
  (order.rearranges v).hasForm h

end Arrangement
end RecordTape
