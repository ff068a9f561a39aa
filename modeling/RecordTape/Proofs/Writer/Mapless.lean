import RecordTape.Proofs.Value.Mapless
import RecordTape.Proofs.Writer.Direct
/-!
# Data under schemas without maps

A datum may hold maps where its schema has records. Their order comes up anew on every occasion, and
under a schema without maps nothing that a writer does depends on it (`resolve_mapless`): what is
resolved, written or reported is the same in every order.
-/

namespace RecordTape.Writer

variable {α : Type} [Datum α] {schema : Schema}

/-- Under a schema without maps values resolve alike whatever the order of their maps, and to values
that have none. -/
theorem resolveValue_mapless (hs : schema.isMapless) {v w : Value} (h : Rearranged v w) :
    resolveValue schema v = resolveValue schema w ∧
      ∀ r, resolveValue schema w = .ok r → r.Rigid := by
  unfold resolveValue
  cases hnames : schema.names with
  | error e => exact ⟨rfl, nofun⟩
  | ok names =>
    have hmapless : names.Mapless := Schema.names_only hs hnames
    have hsame : v.resolveWithin names schema.ns schema = w.resolveWithin names schema.ns schema :=
      Value.fit_same _ h hmapless hs
    simp only [hsame, true_and]
    cases hw : w.resolveWithin names schema.ns schema with
    | error stop => nofun
    | ok r =>
      rintro _ ⟨⟩
      exact Value.fit_rigid (Fallback.ofDepth_rigid _) w hmapless hs hw

/-- A datum resolves as it does with its maps as they are listed. -/
theorem resolve_mapless (hs : schema.isMapless) (d : Arranged α) :
    resolve schema d = resolve schema d.datum := by
  unfold resolve
  rw [Arranged.toValue_eq]
  cases Datum.toValue d.datum with
  | error e => rfl
  | ok v =>
    have hgiven : Rearranged (d.given.arrange v) v := (d.given.rearranges v).symm
    obtain ⟨hsame, hrigid⟩ := resolveValue_mapless hs hgiven
    simp only [Functor.map, Except.map, pure_bind, hsame, Value.containsLong_eq hgiven,
      Value.checkNarrowing_eq hgiven]
    cases hr : resolveValue schema v with
    | error stop => rfl
    | ok r =>
      have harranged (order : Arrangement) : order.arrange r = r :=
        hrigid r hr _ (order.rearranges r)
      simp only [Bind.bind, Except.bind, harranged]

theorem encode_mapless {w : Writer} (hw : Ready schema w) (hs : schema.isMapless) (d : Arranged α) :
    (w.encode d).1 = (w.encode d.datum).1 := by
  rw [encode_ready hw, encode_ready hw, direct, direct, resolve_mapless hs d]

theorem encodeAlone_mapless (hs : schema.isMapless) (d : Arranged α) :
    encodeAlone schema d = encodeAlone schema d.datum := by
  unfold encodeAlone
  cases hcreate : create schema with
  | error stop => rfl
  | ok w => exact encode_mapless (ready_of_create hcreate) hs d

end RecordTape.Writer
