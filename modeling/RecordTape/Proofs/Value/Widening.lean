import RecordTape.Proofs.Schema.Scoped
import RecordTape.Proofs.Value.RoundTrip
/-!
# Decimals that are too wide

A decimal over a fixed is written in the bytes of the fixed, and resolution does not look at whether
it fits: it asks only that the bytes of both can hold the precision. A value in the form of a schema
is written to the end unless a decimal inside it is too wide, and then writing it is a fault at the
first such decimal (`encode_widens`).
-/

namespace RecordTape

/-- Writing goes to the end if no size is among these, and otherwise ends in a fault for one of
them. -/
def Emission.Widens (em : Emission) (sizes : Nat → Prop) : Prop :=
  em.stop = none ∧ (∀ n, ¬ sizes n) ∨
    ∃ n, sizes n ∧ em.stop = some (.fault (.decimalTooWide n))

namespace Emission.Widens

variable {sizes sizes' : Nat → Prop}

theorem done (b : Bytes) : (done b).Widens fun _ => False := .inl ⟨rfl, fun _ => id⟩

theorem crash (size : Nat) : (crash (.decimalTooWide size)).Widens (· = size) :=
  .inr ⟨size, rfl, rfl⟩

theorem congr {em : Emission} (h : em.Widens sizes) (hsizes : ∀ n, sizes n ↔ sizes' n) :
    em.Widens sizes' := by
  obtain rfl : sizes = sizes' := funext fun n => propext (hsizes n)
  exact h

theorem append {a b : Emission} (ha : a.Widens sizes) (hb : b.Widens sizes') :
    (a ++ b).Widens fun n => sizes n ∨ sizes' n := by
  rcases ha with ⟨ha, hnone⟩ | ⟨n, hn, ha⟩
  · have hstop : (a ++ b).stop = b.stop := by
      show (Emission.append a b).stop = b.stop
      simp [Emission.append, ha]
    rcases hb with ⟨hb, hnone'⟩ | ⟨n, hn, hb⟩
    · exact .inl ⟨hstop.trans hb, fun n => not_or_intro (hnone n) (hnone' n)⟩
    · exact .inr ⟨n, .inr hn, hstop.trans hb⟩
  · exact .inr ⟨n, .inl hn, (congrArg stop (append_of_stop ha b)).trans ha⟩

/-- Bytes around an emission take nothing from it and add nothing. -/
theorem around {em : Emission} (h : em.Widens sizes) (a b : Bytes) :
    (.done a ++ em ++ .done b : Emission).Widens sizes :=
  (((Widens.done a).append h).append (.done b)).congr fun n => by simp

theorem behind {em : Emission} (h : em.Widens sizes) (a : Bytes) :
    (.done a ++ em : Emission).Widens sizes :=
  ((Widens.done a).append h).congr fun n => by simp

theorem concat {α : Type} {f : α → Emission} {sizes : α → Nat → Prop} {xs : List α}
    (h : ∀ x ∈ xs, (f x).Widens (sizes x)) :
    (concat (xs.map f)).Widens fun n => ∃ x ∈ xs, sizes x n := by
  induction xs with
  | nil => exact (done []).congr fun n => by simp
  | cons x rest ih =>
    have hrest := ih fun y hy => h y (List.mem_cons_of_mem _ hy)
    exact ((h x List.mem_cons_self).append hrest).congr fun n => by simp

end Emission.Widens

namespace Value

/-- The value holds a decimal that does not fit the fixed of this size that it is written in. -/
inductive TooWide (names : Names) : Schema → Value → Nat → Prop
  | decimal {name : Name} {size precision scale : Nat} {b : Bytes} :
    Decimal.widen size b = none →
    TooWide names (.decimal (.fixed name size) precision scale) (.decimal b) size
  | item {s : Schema} {items : List Value} {v : Value} {size : Nat} :
    v ∈ items → TooWide names s v size → TooWide names (.array s) (.array items) size
  | entry {s : Schema} {entries : List (String × Value)} {p : String × Value} {size : Nat} :
    p ∈ entries → TooWide names s p.2 size → TooWide names (.map s) (.map entries) size
  | branch {branches : List Schema} {i : Nat} {branch : Schema} {v : Value} {size : Nat} :
    branches[i]? = some branch → TooWide names branch v size →
    TooWide names (.union branches) (.union i v) size
  | field {name : Name} {fields : List (Field Schema)} {entries : List (String × Value)}
    {p : Field Schema × String × Value} {size : Nat} :
    p ∈ fields.zip entries → TooWide names p.1.schema p.2.2 size →
    TooWide names (.record name fields) (.record entries) size
  | ref {name : Name} {target : Schema} {v : Value} {size : Nat} :
    names.find? name = some target → TooWide names target v size →
    TooWide names (.ref name) v size

/-- A value without parts is written to the end if it is no decimal. -/
theorem encode_leaf_widens {sized : Bool} {names : Names} {ns : Namespace} {s : Schema} {v : Value}
    (h : HasForm sized names s v) (hs : s.isLeaf) :
    (encode v names ns s).Widens (TooWide names s v) := by
  cases h with
  | @decimal base precision scale b hlen =>
    cases base with
    | bytes => exact (Emission.Widens.done _).congr fun n => ⟨False.elim, by rintro ⟨⟩⟩
    | fixed name size =>
      show (encodeLeaf (.decimal (.fixed name size) precision scale) (.decimal b)).Widens _
      rw [encodeLeaf]
      cases hwide : Decimal.widen size b with
      | some wide =>
        refine (Emission.Widens.done wide).congr fun n => ⟨False.elim, fun h => ?_⟩
        cases h with
        | decimal hnone => cases hwide.symm.trans hnone
      | none =>
        refine (Emission.Widens.crash size).congr fun n => ⟨?_, ?_⟩
        · rintro rfl
          exact .decimal hwide
        · rintro ⟨⟩
          rfl
  | array | map | union | record | ref => cases hs
  | _ => exact (Emission.Widens.done _).congr fun n => ⟨False.elim, by rintro ⟨⟩⟩

/-- Where each field has its value, the fields are written one after the other. -/
theorem encodeFields_eq_concat {names : Names} {ns : Namespace} {values : List (String × Value)}
    {encodings : List (String × Encoding)} {fields : List (Field Schema)}
    {entries : List (String × Value)} (hlen : entries.length = fields.length)
    (h : ∀ p ∈ fields.zip entries, entryOf encodings p.1 = some (encode p.2.2)) :
    encodeFields names ns values encodings fields =
      .concat ((fields.zip entries).map fun p => encode p.2.2 names ns p.1.schema) := by
  induction fields generalizing entries with
  | nil => rfl
  | cons f rest ih =>
    cases entries with
    | nil => cases hlen
    | cons p entries =>
      have hfirst := h (f, p) List.mem_cons_self
      have hrest := ih (Nat.succ.inj hlen) fun q hq => h q (List.mem_cons_of_mem _ hq)
      simp only [encodeFields, hfirst, hrest]
      rfl

/-- A value in the form of a regular schema is written to the end unless a decimal inside it is too
wide. The induction is on the form. -/
theorem encode_widens {sized strict : Bool} {names : Names} {depth : Nat}
    (hnames : names.Regular strict depth) {s : Schema} {v : Value} (h : HasForm sized names s v) :
    ∀ {bare : Bool} {ns : Namespace}, s.isRegular strict bare → Scope bare ns →
      (encode v names ns s).Widens (TooWide names s v) := by
  induction h with
  | @array s items hlen _ ih =>
    intro bare ns hs hscope
    simp only [encode, encodeThrough, encodings_eq, List.map_map]
    refine ((Emission.Widens.concat fun v hv => ih v hv hs hscope).around _ _).congr fun n => ?_
    constructor
    · rintro ⟨v, hv, hwide⟩
      exact .item hv hwide
    · intro hwide
      cases hwide with
      | item hv hwide => exact ⟨_, hv, hwide⟩
  | @map s entries hlen _ _ _ ih =>
    intro bare ns hs hscope
    simp only [encode, encodeThrough, entryEncodings_eq, List.map_map]
    refine ((Emission.Widens.concat fun p hp =>
      (ih p hp hs hscope).behind _).around _ _).congr fun n => ?_
    constructor
    · rintro ⟨p, hp, hwide⟩
      exact .entry hp hwide
    · intro hwide
      cases hwide with
      | entry hp hwide => exact ⟨_, hp, hwide⟩
  | @union branches i branch v hget hi _ ih =>
    intro bare ns hs hscope
    simp only [Schema.isRegular, Bool.and_eq_true] at hs
    have hbranch := Schema.branchesRegular_iff.mp hs.2 _ (List.mem_of_getElem? hget)
    simp only [encode, encodeThrough, hget]
    refine ((ih hbranch hscope).behind _).congr fun n => ⟨.branch hget, ?_⟩
    intro hwide
    cases hwide with
    | branch hget' hwide =>
      cases hget.symm.trans hget'
      exact hwide
  | @record name fields entries heq _ ih =>
    intro bare ns hs hscope
    simp only [Schema.isRegular, Bool.and_eq_true] at hs
    simp only [encode, encodeThrough, Name.qualify_of_regular hscope hs.1]
    rw [encodeFields_eq_concat (HasForm.length_entries heq) fun p hp => entryOf_of_zip hs.2 heq hp]
    have hfield {p : Field Schema × String × Value} (hp : p ∈ fields.zip entries) :=
      (Schema.regular_of_mem hs.2 p.1 (List.of_mem_zip hp).1).1
    refine (Emission.Widens.concat fun p hp =>
      ih p hp (hfield hp) (Scope.named name)).congr fun n => ?_
    constructor
    · rintro ⟨p, hp, hwide⟩
      exact .field hp hwide
    · intro hwide
      cases hwide with
      | field hp hwide => exact ⟨_, hp, hwide⟩
  | @ref name target v hf _ ih =>
    intro bare ns hs hscope
    simp only [Schema.isRegular] at hs
    obtain ⟨hd, htarget, -⟩ := hnames.find? hf
    rw [encode_ref (Name.qualify_of_regular hscope hs) hf hd]
    refine (ih htarget (hscope.kept hs)).congr fun n => ⟨.ref hf, ?_⟩
    intro hwide
    cases hwide with
    | ref hf' hwide =>
      cases hf.symm.trans hf'
      exact hwide
  | _ =>
    intro bare ns _ _
    exact encode_leaf_widens (by constructor <;> assumption : HasForm sized names _ _) rfl

/-- A decimal that is too wide stands under one that the schema speaks of. -/
theorem TooWide.within {names : Names} {whole s : Schema} {v : Value} {size : Nat}
    (hnames : whole.names = .ok names) (h : TooWide names s v size) (hs : s.Within whole) :
    ∃ name precision scale, (Schema.decimal (.fixed name size) precision scale).Within whole := by
  induction h with
  | decimal => exact ⟨_, _, _, hs⟩
  | item _ _ ih => exact ih ((Schema.Within.items (.refl _)).trans hs)
  | entry _ _ ih => exact ih ((Schema.Within.values (.refl _)).trans hs)
  | branch hget _ ih =>
    exact ih ((Schema.Within.branch (List.mem_of_getElem? hget) (.refl _)).trans hs)
  | field hp _ ih =>
    exact ih ((Schema.Within.field (List.of_mem_zip hp).1 (.refl _)).trans hs)
  | ref hf _ ih => exact ih (Schema.within_of_names hnames _ (Names.mem_of_find? hf)).1

end Value
end RecordTape
