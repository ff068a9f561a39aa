import Mathlib.Data.List.Forall2
import RecordTape.Fault
/-!
# Outcomes

A computation with several steps gives a result only if each step does. Two computations are held
against each other in two ways: `Agree` asks for the same stop or results that look the same, and
`Alike` takes any two errors for the same.
-/

namespace RecordTape.Outcome

variable {ε α β : Type}

theorem bind_eq_ok {x : Except ε α} {f : α → Except ε β} {b : β} :
    x >>= f = .ok b ↔ ∃ a, x = .ok a ∧ f a = .ok b := by
  cases x with
  | error e => constructor <;> [intro h; rintro ⟨_, h, -⟩] <;> cases h
  | ok a => exact ⟨fun h => ⟨a, rfl, h⟩, by rintro ⟨_, ⟨⟩, h⟩; exact h⟩

theorem map_eq_ok {x : Except ε α} {f : α → β} {b : β} :
    f <$> x = .ok b ↔ ∃ a, x = .ok a ∧ f a = b := by
  cases x with
  | error e => constructor <;> [intro h; rintro ⟨_, h, -⟩] <;> cases h
  | ok a => exact ⟨fun h => ⟨a, rfl, Except.ok.inj h⟩, by rintro ⟨_, ⟨⟩, rfl⟩; rfl⟩

/-- A list of steps gives the list of their results. -/
theorem mapM_eq_ok {f : α → Except ε β} {xs : List α} {ys : List β} :
    xs.mapM f = .ok ys ↔ List.Forall₂ (fun x y => f x = .ok y) xs ys := by
  induction xs generalizing ys with
  | nil =>
    rw [List.mapM_nil]
    constructor
    · rintro ⟨⟩; exact .nil
    · rintro ⟨⟩; rfl
  | cons x xs ih =>
    rw [List.mapM_cons, bind_eq_ok]
    constructor
    · rintro ⟨y, hy, h⟩
      obtain ⟨ys, hys, ⟨⟩⟩ := bind_eq_ok.mp h
      exact .cons hy (ih.mp hys)
    · rintro (_ | ⟨hy, hys⟩)
      exact ⟨_, hy, bind_eq_ok.mpr ⟨_, ih.mpr hys, rfl⟩⟩

theorem exists_of_mem_mapM {f : α → Except ε β} {xs : List α} {ys : List β}
    (h : xs.mapM f = .ok ys) {y : β} (hy : y ∈ ys) : ∃ x ∈ xs, f x = .ok y := by
  have hall := mapM_eq_ok.mp h
  obtain ⟨i, hi, rfl⟩ := List.mem_iff_getElem.mp hy
  have hi' : i < xs.length := by rw [hall.length_eq]; exact hi
  exact ⟨xs[i], List.getElem_mem hi', hall.get hi' hi⟩

theorem mapM_getElem? {f : α → Except ε β} {xs : List α} {ys : List β} (h : xs.mapM f = .ok ys)
    {i : Nat} {x : α} {y : β} (hx : xs[i]? = some x) (hy : ys[i]? = some y) : f x = .ok y := by
  obtain ⟨hi, rfl⟩ := List.getElem?_eq_some_iff.mp hx
  obtain ⟨hi', rfl⟩ := List.getElem?_eq_some_iff.mp hy
  exact (mapM_eq_ok.mp h).get hi hi'

/-- What a step gives for each item, the steps give for the list. -/
theorem forall₂_of_mapM {p : α → β → Prop} {f : α → Except ε β} {xs : List α} {ys : List β}
    (h : xs.mapM f = .ok ys) (hf : ∀ x ∈ xs, ∀ y, f x = .ok y → p x y) :
    List.Forall₂ p xs ys := by
  have hall := mapM_eq_ok.mp h
  clear h
  induction hall with
  | nil => exact .nil
  | cons hxy _ ih =>
    exact .cons (hf _ List.mem_cons_self _ hxy) (ih fun x hx => hf x (List.mem_cons_of_mem _ hx))

/-- What a step keeps of its item, the list of steps keeps of the list. -/
theorem map_eq_of_mapM {γ : Type} {f : α → Except ε β} {xs : List α} {ys : List β} {a : α → γ}
    {b : β → γ} (h : xs.mapM f = .ok ys) (hf : ∀ x ∈ xs, ∀ y, f x = .ok y → a x = b y) :
    xs.map a = ys.map b := by
  rw [← List.forall₂_eq_eq_eq, List.forall₂_map_left_iff, List.forall₂_map_right_iff]
  exact forall₂_of_mapM h hf

/-- Steps that are the same for each item are the same for the list. -/
theorem mapM_congr {f g : α → Except ε β} {xs : List α} (h : ∀ x ∈ xs, f x = g x) :
    xs.mapM f = xs.mapM g := by
  induction xs with
  | nil => rfl
  | cons x xs ih =>
    have hrest := ih fun y hy => h y (List.mem_cons_of_mem _ hy)
    rw [List.mapM_cons, List.mapM_cons, h x List.mem_cons_self, hrest]

/-! ## Why a computation stops -/

/-- If the computation stops, it does so for one of these reasons. -/
def Stops (P : ε → Prop) (x : Except ε α) : Prop := ∀ e, x = .error e → P e

namespace Stops

variable {P : ε → Prop}

theorem ok (a : α) : Stops P (.ok a : Except ε α) := nofun

theorem error {e : ε} (h : P e) : Stops P (.error e : Except ε α) := by
  rintro _ ⟨⟩
  exact h

theorem bind {x : Except ε α} {f : α → Except ε β} (hx : Stops P x)
    (hf : ∀ a, x = .ok a → Stops P (f a)) : Stops P (x >>= f) := by
  cases x with
  | error e => exact .error (hx e rfl)
  | ok a => exact hf a rfl

theorem mapM {f : α → Except ε β} {xs : List α} (h : ∀ x ∈ xs, Stops P (f x)) :
    Stops P (xs.mapM f) := by
  induction xs with
  | nil => exact .ok []
  | cons x xs ih =>
    rw [List.mapM_cons]
    refine (h x List.mem_cons_self).bind fun y _ => ?_
    exact (ih fun y hy => h y (List.mem_cons_of_mem _ hy)).bind fun ys _ => .ok _

/-- The reasons with another description of the errors. -/
theorem mapError {δ : Type} {P : Stop ε → Prop} {Q : Stop δ → Prop} {f : ε → δ} {x : Outcome ε α}
    (h : Stops P x) (hf : ∀ stop, P stop → Q (stop.map f)) : Stops Q (x.mapError f) := by
  cases x with
  | error stop => exact .error (hf stop (h stop rfl))
  | ok a => exact .ok a

end Stops

/-! ## Two computations -/

/-- Two computations that end alike, as far as a view of their results tells. -/
def Agree (view : α → β) (x y : Except ε α) : Prop := view <$> x = view <$> y

namespace Agree

variable {γ δ : Type} {view : α → β} {x y : Except ε α}

theorem refl (x : Except ε α) : Agree view x x := rfl

theorem ok {a b : α} (h : view a = view b) : Agree view (.ok a : Except ε α) (.ok b) :=
  congrArg Except.ok h

theorem cases (h : Agree view x y) :
    (∃ e, x = .error e ∧ y = .error e) ∨ ∃ a b, x = .ok a ∧ y = .ok b ∧ view a = view b := by
  rcases x with e | a <;> rcases y with e' | b <;> simp only [Agree, Functor.map, Except.map] at h
  · exact .inl ⟨e, rfl, congrArg _ (Except.error.inj h).symm⟩
  · cases h
  · cases h
  · exact .inr ⟨a, b, rfl, rfl, Except.ok.inj h⟩

theorem bind {view' : γ → δ} {f g : α → Except ε γ} (h : Agree view x y)
    (hf : ∀ a b, view a = view b → Agree view' (f a) (g b)) : Agree view' (x >>= f) (y >>= g) := by
  rcases h.cases with ⟨e, rfl, rfl⟩ | ⟨a, b, rfl, rfl, hab⟩
  · exact .refl _
  · exact hf a b hab

/-- Steps that agree item by item agree on the list of their results. -/
theorem mapM {σ τ : Type} {f : σ → Except ε α} {g : τ → Except ε α} {xs : List σ} {ys : List τ}
    (h : List.Forall₂ (fun x y => Agree view (f x) (g y)) xs ys) :
    Agree (List.map view) (xs.mapM f) (ys.mapM g) := by
  induction h with
  | nil => exact .refl _
  | cons hxy _ ih =>
    rw [List.mapM_cons, List.mapM_cons]
    refine hxy.bind fun a b hab => ih.bind fun as bs habs => .ok ?_
    rw [List.map_cons, List.map_cons, hab, habs]

theorem mapError {x y : Outcome ε α} (h : Agree view x y) (f : ε → γ) :
    Agree view (x.mapError f) (y.mapError f) := by
  rcases h.cases with ⟨e, rfl, rfl⟩ | ⟨a, b, rfl, rfl, hab⟩
  · exact .refl _
  · exact .ok hab

end Agree

/-- Both computations report an error, or both end in the same fault, or both give results that are
related. -/
inductive Alike (R : α → α → Prop) : Outcome ε α → Outcome ε α → Prop
  | ok {a b : α} : R a b → Alike R (.ok a) (.ok b)
  | error (e e' : ε) : Alike R (.error (.error e)) (.error (.error e'))
  | fault (f : Fault) : Alike R (.error (.fault f)) (.error (.fault f))

namespace Alike

variable {δ : Type} {R : α → α → Prop} {x y : Outcome ε α}

theorem stopped (s : Stop ε) : Alike R (.error s) (.error s) := by
  cases s with
  | error e => exact .error e e
  | fault f => exact .fault f

theorem of_eq (h : x = y) : Alike Eq x y := by
  subst h
  cases x with
  | error stop => exact stopped stop
  | ok a => exact .ok rfl

theorem mapError (h : Alike R x y) (f : ε → δ) : Alike R (x.mapError f) (y.mapError f) := by
  cases h with
  | ok hab => exact .ok hab
  | error e e' => exact .error _ _
  | fault g => exact .fault g

end Alike

end RecordTape.Outcome
