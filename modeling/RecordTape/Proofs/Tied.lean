import Mathlib.Data.List.Perm.Basic
import RecordTape.Proofs.Outcome
/-!
# Computations in another order

Steps that are taken in another order come to the same results in another order, or they stop in
both orders. Where they stop differs, and so does why: if one step has an error and another one a
fault, the order decides which of the two shows. An error may be made good, as it is when the next
branch of a union is tried, and a fault may not. So no more can be said of two orders than `Tied`
says: both give results or both stop, unless one of the two ends in a fault.
-/

namespace RecordTape

def Stop.isFault {ε : Type} : Stop ε → Bool
  | .error _ => false
  | .fault _ => true

@[simp] theorem Stop.isFault_map {ε δ : Type} (f : ε → δ) (stop : Stop ε) :
    (stop.map f).isFault = stop.isFault := by
  cases stop <;> rfl

namespace Outcome

variable {ε α β γ δ : Type}

/-- Both computations give results, which are related, or both stop. If one of them stops for a bad
reason, nothing is said of the other. -/
inductive Tied (bad : ε → Prop) (R : α → β → Prop) : Except ε α → Except ε β → Prop
  | ok {a : α} {b : β} : R a b → Tied bad R (.ok a) (.ok b)
  | error (e e' : ε) : Tied bad R (.error e) (.error e')
  | left {e : ε} (y : Except ε β) : bad e → Tied bad R (.error e) y
  | right (x : Except ε α) {e : ε} : bad e → Tied bad R x (.error e)

namespace Tied

variable {bad : ε → Prop} {R : α → β → Prop} {x : Except ε α} {y : Except ε β}

theorem refl {R : α → α → Prop} (hR : ∀ a, R a a) (x : Except ε α) : Tied bad R x x := by
  cases x with
  | error e => exact .error e e
  | ok a => exact .ok (hR a)

theorem imp {S : α → β → Prop} (h : Tied bad R x y) (hRS : ∀ a b, R a b → S a b) :
    Tied bad S x y := by
  cases h with
  | ok hab => exact .ok (hRS _ _ hab)
  | error e e' => exact .error e e'
  | left y he => exact .left y he
  | right x he => exact .right x he

/-- The results that are related are those that were given. -/
theorem given (h : Tied bad R x y) : Tied bad (fun a b => x = .ok a ∧ y = .ok b ∧ R a b) x y := by
  cases h with
  | ok hab => exact .ok ⟨rfl, rfl, hab⟩
  | error e e' => exact .error e e'
  | left y he => exact .left y he
  | right x he => exact .right x he

theorem symm (h : Tied bad R x y) : Tied bad (flip R) y x := by
  cases h with
  | ok hab => exact .ok hab
  | error e e' => exact .error e' e
  | left y he => exact .right y he
  | right x he => exact .left x he

theorem bind {S : γ → δ → Prop} {f : α → Except ε γ} {g : β → Except ε δ} (h : Tied bad R x y)
    (hf : ∀ a b, R a b → Tied bad S (f a) (g b)) : Tied bad S (x >>= f) (y >>= g) := by
  cases h with
  | ok hab => exact hf _ _ hab
  | error e e' => exact .error e e'
  | left y he => exact .left _ he
  | right x he => exact .right _ he

theorem map {S : γ → δ → Prop} {f : α → γ} {g : β → δ} (h : Tied bad R x y)
    (hf : ∀ a b, R a b → S (f a) (g b)) : Tied bad S (f <$> x) (g <$> y) := by
  cases h with
  | ok hab => exact .ok (hf _ _ hab)
  | error e e' => exact .error e e'
  | left y he => exact .left _ he
  | right x he => exact .right _ he

end Tied

/-! ## Lists of steps -/

/-- A list of steps stops at one of them. -/
theorem exists_of_mapM_error {f : α → Except ε β} {xs : List α} {e : ε}
    (h : xs.mapM f = .error e) : ∃ x ∈ xs, f x = .error e :=
  Stops.mapM (P := fun e => ∃ x ∈ xs, f x = .error e) (fun x hx _ he => ⟨x, hx, he⟩) e h

/-- Steps in another order give their results in that order. -/
theorem exists_of_mapM_perm {f : α → Except ε β} {xs ys : List α} {bs : List β} (h : xs.Perm ys)
    (hys : ys.mapM f = .ok bs) : ∃ as, xs.mapM f = .ok as ∧ as.Perm bs := by
  obtain ⟨as, has, hperm⟩ := List.perm_comp_forall₂ h (mapM_eq_ok.mp hys)
  exact ⟨as, mapM_eq_ok.mpr has, hperm⟩

namespace Tied

variable {σ τ : Type} {bad : ε → Prop} {R : α → β → Prop} {f : σ → Except ε α}
  {g : τ → Except ε β} {xs : List σ} {ys zs : List τ}

/-- If all results are there for both lists, they are related one by one. -/
theorem forall₂_of_mapM (h : List.Forall₂ (fun x y => Tied bad R (f x) (g y)) xs ys)
    {as : List α} {bs : List β} (has : xs.mapM f = .ok as) (hbs : ys.mapM g = .ok bs) :
    List.Forall₂ R as bs := by
  rw [mapM_eq_ok] at has hbs
  induction h generalizing as bs with
  | nil => cases has; cases hbs; exact .nil
  | cons hxy _ ih =>
    cases has with
    | cons ha has =>
      cases hbs with
      | cons hb hbs =>
        rw [ha, hb] at hxy
        cases hxy with
        | ok hab => exact .cons hab (ih has hbs)

/-- A list of steps that gives results, beside one that stops: some step of the other one stops,
where the step beside it does not. -/
theorem bad_of_mapM (h : List.Forall₂ (fun x y => Tied bad R (f x) (g y)) xs ys)
    {as : List α} {e : ε} (has : xs.mapM f = .ok as) (hys : ∃ y ∈ ys, g y = .error e) : bad e := by
  obtain ⟨y, hy, he⟩ := hys
  rw [mapM_eq_ok] at has
  induction h generalizing as with
  | nil => cases hy
  | cons hxy _ ih =>
    cases has with
    | cons ha has =>
      rcases List.mem_cons.mp hy with rfl | hy
      · rw [ha, he] at hxy
        cases hxy with
        | right _ he => exact he
      · exact ih has hy

/-- Steps that are tied one by one, the second ones in any order. -/
theorem mapM_perm (h : List.Forall₂ (fun x y => Tied bad R (f x) (g y)) xs ys)
    (hperm : ys.Perm zs) :
    Tied bad (fun as cs => ∃ bs, List.Forall₂ R as bs ∧ bs.Perm cs) (xs.mapM f) (zs.mapM g) := by
  cases hxs : xs.mapM f with
  | ok as =>
    cases hzs : zs.mapM g with
    | ok cs =>
      obtain ⟨bs, hbs, hperm'⟩ := exists_of_mapM_perm hperm hzs
      exact .ok ⟨bs, forall₂_of_mapM h hxs hbs, hperm'⟩
    | error e =>
      obtain ⟨z, hz, he⟩ := exists_of_mapM_error hzs
      exact .right _ (bad_of_mapM h hxs ⟨z, hperm.mem_iff.mpr hz, he⟩)
  | error e =>
    cases hzs : zs.mapM g with
    | ok cs =>
      obtain ⟨bs, hbs, -⟩ := exists_of_mapM_perm hperm hzs
      have hback : List.Forall₂ (fun y x => Tied bad (flip R) (g y) (f x)) ys xs :=
        h.flip.imp fun _ _ => symm
      exact .left _ (bad_of_mapM hback hbs (exists_of_mapM_error hxs))
    | error e' => exact .error e e'

theorem mapM (h : List.Forall₂ (fun x y => Tied bad R (f x) (g y)) xs ys) :
    Tied bad (List.Forall₂ R) (xs.mapM f) (ys.mapM g) := by
  induction h with
  | nil => exact .ok .nil
  | cons hxy _ ih =>
    rw [List.mapM_cons, List.mapM_cons]
    exact hxy.bind fun a b hab => ih.bind fun as bs habs => .ok (.cons hab habs)

end Tied

/-! ## Errors and faults -/

/-- Both computations give results, which are related, or both stop, unless one of them ends in a
fault. -/
abbrev InStep (R : α → β → Prop) : Outcome ε α → Outcome ε β → Prop :=
  Tied (fun stop => stop.isFault) R

/-- Both give results, both have an error, or a fault ends one of them. -/
theorem InStep.ends {R : α → β → Prop} {x : Outcome ε α} {y : Outcome ε β} (h : InStep R x y) :
    (∃ a b, x = .ok a ∧ y = .ok b ∧ R a b) ∨
      (∃ e e', x = .error (.error e) ∧ y = .error (.error e')) ∨
      (∃ f, x = .error (.fault f)) ∨ ∃ f, y = .error (.fault f) := by
  cases h with
  | ok hab => exact .inl ⟨_, _, rfl, rfl, hab⟩
  | error stop stop' =>
    rcases stop with e | f
    · rcases stop' with e' | f
      · exact .inr (.inl ⟨e, e', rfl, rfl⟩)
      · exact .inr (.inr (.inr ⟨f, rfl⟩))
    · exact .inr (.inr (.inl ⟨f, rfl⟩))
  | @left stop y hstop =>
    rcases stop with e | f
    · cases hstop
    · exact .inr (.inr (.inl ⟨f, rfl⟩))
  | @right x stop hstop =>
    rcases stop with e | f
    · cases hstop
    · exact .inr (.inr (.inr ⟨f, rfl⟩))

theorem InStep.mapError {R : α → β → Prop} {x : Outcome ε α} {y : Outcome ε β} (h : InStep R x y)
    (f : ε → δ) : InStep R (x.mapError f) (y.mapError f) := by
  cases h with
  | ok hab => exact .ok hab
  | error e e' => exact .error _ _
  | left y he => exact .left _ ((Stop.isFault_map f _).trans he)
  | right x he => exact .right _ ((Stop.isFault_map f _).trans he)

end Outcome
end RecordTape
