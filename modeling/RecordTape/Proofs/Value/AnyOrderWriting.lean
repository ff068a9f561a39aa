import Mathlib.Algebra.BigOperators.Group.List.Basic
import RecordTape.Proofs.Value.AnyOrder
import RecordTape.Proofs.Value.SignsApart
import RecordTape.Value.Encode
import RecordTape.Value.Validate
/-!
# Writing in any order

A value has issues in every order of its maps or in none (`issues_inStep`), and is written to as
many bytes in every order, or in none (`encode_inStep`).
-/

namespace RecordTape

open Outcome (Tied)

/-! ## Issues -/

/-- Two checks that both find something or both find nothing, unless there is a fault. -/
def Check.InStep (c d : Check) : Prop :=
  ∀ (names : Names) (ns : Namespace) (s : Schema),
    Tied (fun _ => True) (fun is js => is = [] ↔ js = []) (c names ns s) (d names ns s)

theorem Check.InStep.refl (c : Check) : c.InStep c := fun _ _ _ => Tied.refl (fun _ => .rfl) _

namespace Value

theorem flatten_eq_nil_congr {σ : Type} {xss yss : List (List σ)}
    (h : List.Forall₂ (fun xs ys => xs = [] ↔ ys = []) xss yss) :
    xss.flatten = [] ↔ yss.flatten = [] := by
  induction h with
  | nil => exact .rfl
  | cons hxy _ ih =>
    rw [List.flatten_cons, List.flatten_cons, List.append_eq_nil_iff, List.append_eq_nil_iff, hxy,
      ih]

theorem flatten_eq_nil_perm {σ : Type} {xss yss : List (List σ)} (h : xss.Perm yss) :
    xss.flatten = [] ↔ yss.flatten = [] := by
  rw [List.flatten_eq_nil_iff, List.flatten_eq_nil_iff]
  exact ⟨fun hall xs hxs => hall xs (h.mem_iff.mpr hxs), fun hall xs hxs =>
    hall xs (h.mem_iff.mp hxs)⟩

theorem checks_eq_map (fallback : Fallback) (items : List Value) :
    checks fallback items = items.map (issues fallback) := by
  induction items with
  | nil => rfl
  | cons v rest ih => rw [checks, ih]; rfl

theorem entryChecks_eq_map (fallback : Fallback) (entries : List (String × Value)) :
    entryChecks fallback entries = entries.map fun p => (p.1, p.2.issues fallback) := by
  induction entries with
  | nil => rfl
  | cons p rest ih => rw [entryChecks, ih]; rfl

section Issues

variable {names : Names} {ns : Namespace}

theorem checkThrough_inStep {b c d e : Check} (hunion : b.InStep d) (hdirect : c.InStep e) :
    (checkThrough b c).InStep (checkThrough d e) := by
  intro names ns s
  have hboth := And.intro (hunion names ns s) (hdirect names ns s)
  cases s with
  | ref name =>
    simp only [checkThrough]
    split
    · exact .ok .rfl
    · exact hunion _ _ _
    · exact hdirect _ _ _
  | union branches => exact hboth.1
  | _ => exact hboth.2

theorem searchIssues_inStep (fallback : Fallback) {v w : Value} (h : Rearranged v w) :
    (searchIssues fallback v).InStep (searchIssues fallback w) := by
  intro names ns s
  cases s with
  | union branches =>
    have hchoose := chooseBranch_inStep (plain_inStep fallback h) v.kind names ns branches
    simp only [searchIssues, ← h.kind_eq]
    rcases hchoose.ends with ⟨_, _, hx, hy, -⟩ | ⟨_, _, hx, hy⟩ | ⟨_, hx⟩ | ⟨_, hy⟩
    · simp only [hx, hy]
      exact .ok .rfl
    · simp only [hx, hy]
      exact .ok .rfl
    · simp only [hx]
      exact .left _ trivial
    · simp only [hy]
      exact .right _ trivial
  | _ => exact .ok .rfl

/-- The checks of entries that change places. -/
theorem mapChecks_inStep {cs ds es : List (String × Check)} (h : EntriesRelated Check.InStep cs ds)
    (horder : ds.Perm es) (s : Schema) :
    Tied (fun _ => True) (fun is js => is = [] ↔ js = [])
      (do return (← cs.mapM fun (_, check) => check names ns s).flatten)
      (do return (← es.mapM fun (_, check) => check names ns s).flatten) := by
  have hsteps : List.Forall₂ (fun c d : String × Check =>
      Tied (fun _ => True) (fun is js => is = [] ↔ js = []) (c.2 names ns s) (d.2 names ns s))
      cs ds := h.imp fun c d hcd => hcd.2 names ns s
  refine (Tied.mapM_perm hsteps horder).bind ?_
  rintro is js ⟨ks, hks, hperm⟩
  exact .ok ((flatten_eq_nil_congr hks).trans (flatten_eq_nil_perm hperm))

theorem itemChecks_inStep {cs ds : List Check} (h : List.Forall₂ Check.InStep cs ds) (s : Schema) :
    Tied (fun _ => True) (fun is js => is = [] ↔ js = [])
      (do return (← cs.mapM fun check => check names ns s).flatten)
      (do return (← ds.mapM fun check => check names ns s).flatten) :=
  (Tied.mapM (h.imp fun _ _ hcd => hcd names ns s)).bind fun _ _ hks =>
    .ok (flatten_eq_nil_congr hks)

theorem entryIssues_inStep {cs ds : List (String × Check)}
    (h : ∀ name, Option.Rel Check.InStep (cs.lookup name) (ds.lookup name))
    (fields : List (Field Schema)) :
    Tied (fun _ => True) (fun is js => is = [] ↔ js = []) (entryIssues names ns fields cs)
      (entryIssues names ns fields ds) := by
  refine (Tied.mapM (List.forall₂_same.mpr fun field _ => ?step)).bind fun _ _ hks =>
    .ok (flatten_eq_nil_congr hks)
  have hentry := h field.name
  generalize cs.lookup field.name = c at hentry
  generalize ds.lookup field.name = d at hentry
  cases hentry with
  | none => exact Tied.refl (fun _ => .rfl) _
  | some hcd => exact hcd names ns field.schema

theorem fieldIssues_inStep {cs ds : List (String × Check)} (h : EntriesRelated Check.InStep cs ds)
    (fields : List (Field Schema)) :
    Tied (fun _ => True) (fun is js => is = [] ↔ js = []) (fieldIssues names ns fields cs)
      (fieldIssues names ns fields ds) := by
  unfold fieldIssues
  rw [h.length_eq]
  simp only
  split
  · exact Tied.refl (fun _ => .rfl) _
  · split
    · exact Tied.refl (fun _ => .rfl) _
    · refine (Tied.mapM (h.imp fun c d hcd => ?_)).bind fun _ _ hks =>
        .ok (flatten_eq_nil_congr hks)
      rw [hcd.1]
      split
      · exact hcd.2 names ns _
      · exact Tied.refl (fun _ => .rfl) _

end Issues

theorem entryChecks_inStep {fallback : Fallback} {es fs : List (String × Value)}
    (h : EntriesRelated (fun v w => (v.issues fallback).InStep (w.issues fallback)) es fs) :
    EntriesRelated Check.InStep (entryChecks fallback es) (entryChecks fallback fs) := by
  rw [entryChecks_eq_map, entryChecks_eq_map]
  exact h.mapValues

/-- A value has issues in every order of its maps or in none. -/
theorem issues_inStep (fallback : Fallback) {v w : Value} (h : Rearranged v w) :
    (v.issues fallback).InStep (w.issues fallback) := by
  have hsearch := searchIssues_inStep fallback h
  induction h with
  | refl v => exact .refl _
  | @array items items' hlen hparts ih =>
    have hchecks : List.Forall₂ Check.InStep (checks fallback items) (checks fallback items') := by
      rw [checks_eq_map, checks_eq_map, List.forall₂_map_left_iff, List.forall₂_map_right_iff]
      exact forall₂_of_zip hlen fun p hp =>
        ih p hp (searchIssues_inStep fallback (hparts p hp))
    rw [issues, issues]
    refine checkThrough_inStep hsearch fun names ns s => ?_
    cases s with
    | array schema => exact itemChecks_inStep hchecks schema
    | _ => exact Tied.refl (fun _ => .rfl) _
  | @map entries entries' listed hnames hparts horder ih =>
    have hchecks := entryChecks_inStep (entriesRelated_of_zip hnames fun p hp =>
      ih p hp (searchIssues_inStep fallback (hparts p hp)))
    have hreordered : Reordered (entryChecks fallback entries') (entryChecks fallback listed) := by
      rw [entryChecks_eq_map, entryChecks_eq_map]
      exact horder.mapValues _
    rw [issues, issues]
    refine checkThrough_inStep hsearch fun names ns s => ?_
    cases s with
    | map schema => exact mapChecks_inStep hchecks hreordered.perm schema
    | record name fields =>
      refine entryIssues_inStep (fun key => ?_) fields
      rw [← hreordered.lookup key]
      exact hchecks.lookup key
    | _ => exact Tied.refl (fun _ => .rfl) _
  | @union i v w hvw ih =>
    have hbranch := ih (searchIssues_inStep fallback hvw)
    rw [issues, issues]
    refine checkThrough_inStep (fun names ns s => ?_) (fun names ns s => ?_)
    all_goals
      cases s with
      | union branches =>
        simp only
        split
        · exact hbranch names ns _
        · exact Tied.refl (fun _ => .rfl) _
      | _ => exact Tied.refl (fun _ => .rfl) _
  | record hnames hparts ih =>
    have hchecks := entryChecks_inStep (entriesRelated_of_zip hnames fun p hp =>
      ih p hp (searchIssues_inStep fallback (hparts p hp)))
    rw [issues, issues]
    refine checkThrough_inStep hsearch fun names ns s => ?_
    cases s with
    | record name fields => exact fieldIssues_inStep hchecks fields
    | _ => exact Tied.refl (fun _ => .rfl) _

end Value

/-! ## Bytes -/

namespace Emission

/-- The bytes, if writing does not stop. -/
def outcome (e : Emission) : Outcome EncodeError Bytes :=
  match e.stop with
  | none => .ok e.bytes
  | some stop => .error stop

theorem outcome_append (a b : Emission) :
    (a ++ b).outcome = do return (← a.outcome) ++ (← b.outcome) := by
  obtain ⟨x, _ | stop⟩ := a
  · obtain ⟨y, _ | stop⟩ := b <;> rfl
  · rfl

theorem outcome_concat {σ : Type} (f : σ → Emission) (xs : List σ) :
    (concat (xs.map f)).outcome = List.flatten <$> xs.mapM fun x => (f x).outcome := by
  induction xs with
  | nil => rfl
  | cons x xs ih =>
    rw [List.map_cons, concat, outcome_append, ih, List.mapM_cons]
    cases (f x).outcome with
    | error e => rfl
    | ok b => cases xs.mapM fun x => (f x).outcome <;> rfl

/-- Two emissions of as many bytes, or which both stop, unless there is a fault. -/
def InStep (a b : Emission) : Prop :=
  Outcome.InStep (fun x y => x.length = y.length) a.outcome b.outcome

namespace InStep

theorem refl (e : Emission) : e.InStep e :=
  Tied.refl (R := fun x y : Bytes => x.length = y.length) (fun _ => rfl) _

theorem append {a b c d : Emission} (h : a.InStep b) (h' : c.InStep d) :
    (a ++ c).InStep (b ++ d) := by
  unfold InStep
  rw [outcome_append, outcome_append]
  refine h.bind fun x y hxy => h'.bind fun z w hzw => .ok ?_
  rw [List.length_append, List.length_append, hxy, hzw]

/-- Emissions that are in step one by one, the second ones in any order. -/
theorem concat {σ τ : Type} {f : σ → Emission} {g : τ → Emission} {xs : List σ} {ys zs : List τ}
    (h : List.Forall₂ (fun x y => (f x).InStep (g y)) xs ys) (hperm : ys.Perm zs) :
    (Emission.concat (xs.map f)).InStep (Emission.concat (zs.map g)) := by
  unfold InStep
  rw [outcome_concat, outcome_concat]
  refine (Tied.mapM_perm h hperm).map ?_
  rintro as cs ⟨bs, hbs, hperm'⟩
  have hlengths : as.map List.length = bs.map List.length := by
    rw [← List.forall₂_eq_eq_eq, List.forall₂_map_left_iff, List.forall₂_map_right_iff]
    exact hbs
  rw [List.length_flatten, List.length_flatten, hlengths]
  exact (hperm'.map _).sum_eq

end InStep
end Emission

/-- Two ways of writing that are in step under every schema. -/
def Encoding.InStep (d e : Encoding) : Prop :=
  ∀ (names : Names) (ns : Namespace) (s : Schema), (d names ns s).InStep (e names ns s)

theorem Encoding.InStep.refl (d : Encoding) : d.InStep d := fun _ _ _ => .refl _

namespace Value

theorem encodings_eq_map (items : List Value) : encodings items = items.map encode := by
  induction items with
  | nil => rfl
  | cons v rest ih => rw [encodings, ih]; rfl

theorem entryEncodings_eq_map (entries : List (String × Value)) :
    entryEncodings entries = entries.map fun p => (p.1, p.2.encode) := by
  induction entries with
  | nil => rfl
  | cons p rest ih => rw [entryEncodings, ih]; rfl

theorem encodeThrough_inStep {d e : Encoding} (h : d.InStep e) :
    (encodeThrough d).InStep (encodeThrough e) := by
  intro names ns s
  have hdirect := h names ns s
  cases s with
  | ref name =>
    simp only [encodeThrough]
    split
    · exact h _ _ _
    · exact .refl _
  | _ => exact hdirect

theorem encodeFields_inStep {ps qs : List (String × Encoding)}
    (h : EntriesRelated Encoding.InStep ps qs) (values values' : List (String × Value))
    (names : Names) (ns : Namespace) (fields : List (Field Schema)) :
    (encodeFields names ns values ps fields).InStep (encodeFields names ns values' qs fields) := by
  induction fields with
  | nil => exact .refl _
  | cons field rest ih =>
    rw [encodeFields, encodeFields]
    have hrel := entryOf_related h field
    generalize entryOf ps field = p at hrel
    generalize entryOf qs field = q at hrel
    cases hrel with
    | none => exact .error _ _
    | some hpq => exact (hpq names ns field.schema).append ih

theorem entryEncodings_inStep {es fs : List (String × Value)}
    (h : EntriesRelated (fun v w => v.encode.InStep w.encode) es fs) :
    EntriesRelated Encoding.InStep (entryEncodings es) (entryEncodings fs) := by
  rw [entryEncodings_eq_map, entryEncodings_eq_map]
  exact h.mapValues

/-- A value is written to as many bytes in every order of its maps, or in none. -/
theorem encode_inStep {v w : Value} (h : Rearranged v w) : v.encode.InStep w.encode := by
  induction h with
  | refl v => exact .refl _
  | @array items items' hlen _ ih =>
    have hparts : List.Forall₂ Encoding.InStep (encodings items) (encodings items') := by
      rw [encodings_eq_map, encodings_eq_map, List.forall₂_map_left_iff,
        List.forall₂_map_right_iff]
      exact forall₂_of_zip hlen ih
    refine encodeThrough_inStep fun names ns s => ?_
    cases s with
    | array schema =>
      simp only [hlen]
      refine (Emission.InStep.append (.refl _) (.concat ?_ (.refl _))).append (.refl _)
      exact hparts.imp fun d e hde => hde names ns schema
    | _ => exact .refl _
  | @map entries entries' listed hnames _ horder ih =>
    have hparts := entryEncodings_inStep (entriesRelated_of_zip hnames ih)
    have hreordered : Reordered (entryEncodings entries') (entryEncodings listed) := by
      rw [entryEncodings_eq_map, entryEncodings_eq_map]
      exact horder.mapValues _
    have hlen : entries.length = listed.length := by
      simpa [horder.perm.length_eq] using congrArg List.length hnames
    refine encodeThrough_inStep fun names ns s => ?_
    cases s with
    | map schema =>
      simp only [hlen]
      refine (Emission.InStep.append (.refl _) (.concat ?_ hreordered.perm)).append (.refl _)
      refine hparts.imp fun p q hpq => ?_
      simp only [hpq.1]
      exact (Emission.InStep.refl _).append (hpq.2 names ns schema)
    | _ => exact .refl _
  | union i _ ih =>
    refine encodeThrough_inStep fun names ns s => ?_
    cases s with
    | union branches =>
      simp only
      split
      · exact (Emission.InStep.refl _).append (ih names ns _)
      · exact .refl _
    | _ => exact .refl _
  | record hnames _ ih =>
    have hparts := entryEncodings_inStep (entriesRelated_of_zip hnames ih)
    refine encodeThrough_inStep fun names ns s => ?_
    cases s with
    | record name fields =>
      exact encodeFields_inStep (List.forall₂_reverse_iff.mpr hparts) _ _ names _ fields
    | _ => exact .refl _

end Value
end RecordTape
