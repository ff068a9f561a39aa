import RecordTape.Proofs.Value.SteadyWriting
import RecordTape.Proofs.Writer.Standalone
/-!
# Names after binding

Binding is the last time that a scoped schema can be refused for a name. Whatever data a writer for
it is given, and whatever became of those before, no write stops for a name: not in resolution, not
in validation, not in the binary encoding and not while a union is searched; and the scratch that is
made anew after a failure is always there (`names_known`).

Names that stand outside of all namespaces inside of one are what a scoped schema does without.
Binding takes such a name for one of the namespace. Resolution goes into the fields of a record with
the namespace around the record and does not, so that a schema that binds may refuse its own data
(`encode_loop`).
-/

namespace RecordTape

/-- The failure is that a name stands for nothing or for several things. -/
def EncodingFailure.aboutName : EncodingFailure → Bool
  | .names _ => true
  | .mismatch cause => cause.aboutName
  | .issues found => found.any Issue.aboutName
  | .encode cause => cause.aboutName
  | _ => false

/-- The error is that a name stands for nothing or for several things. A schema that was bound has
no other reason to be refused later on. -/
def TapeError.aboutName : TapeError → Bool
  | .schemaBinding _ => true
  | .encoding cause => cause.aboutName
  | _ => false

namespace Writer

open Outcome (Stops)
open Schema (Settled)

section Direct

variable {α : Type} [Datum α] {schema : Schema} {names : Names}

/-- Resolution and validation may stop as they like, but for a name. -/
theorem allows_nameless (schema : Schema) :
    Allows schema (·.concerns Mismatch.aboutName = false) :=
  ⟨fun _ h => h, fun _ _ _ _ _ _ => rfl⟩

theorem defaults_nameless (hschema : schema.Binds names) (depth : Nat) :
    (Fallback.ofDepth depth).Steady schema names (·.concerns Mismatch.aboutName = false) :=
  Fallback.ofDepth_steady hschema (allows_nameless schema) rfl rfl depth

/-- The ways in which resolution may stop say how a datum may be kept from being resolved. -/
theorem resolve_stops {P : Stop Mismatch → Prop} {Q : Stop EncodingFailure → Prop}
    (hschema : schema.Binds names) (hP : Allows schema P)
    (hdefaults : (Fallback.ofDepth (Value.defaultDepth names schema)).Steady schema names P) (d : α)
    (hdatum : ∀ e, Q (.error (.datum e))) (hmismatch : ∀ stop, P stop → Q (stop.map .mismatch))
    (hnarrowed : ∀ n, Q (.error (.narrowed n))) : Stops Q (resolve schema d) := by
  unfold resolve
  cases Datum.toValue d with
  | error e => exact .error (hdatum e)
  | ok given =>
    have hfit := Value.fit_steady hschema hP hdefaults given schema (Settled.alone hschema)
      (Scope.alone schema) (.refl names)
    have hresolve : Stops P (given.resolveWithin names schema.ns schema) := by
      rw [Value.resolveWithin, hfit.1]
      exact hfit.2
    show Stops Q (resolveValue schema given >>= _)
    refine .bind ?_ fun v _ => ?_
    · rw [resolveValue, hschema.names_eq]
      exact hresolve.mapError hmismatch
    · simp only
      split
      · split
        · exact .ok _
        · exact .error (hnarrowed _)
      · exact .ok _

theorem resolve_nameless (hschema : schema.Binds names) (d : α) :
    Stops (·.concerns EncodingFailure.aboutName = false) (resolve schema d) := by
  refine resolve_stops hschema (allows_nameless schema) (defaults_nameless hschema _) d
    (fun _ => rfl) (fun stop hstop => ?_) (fun _ => rfl)
  cases stop <;> exact hstop

theorem encodeValue_nameless (hschema : schema.Binds names) (v : Value)
    {stop : Stop EncodingFailure} (h : (encodeValue schema v).2 = some stop) :
    stop.concerns EncodingFailure.aboutName = false := by
  have halone := Settled.alone hschema
  have hissues := Value.issues_steady hschema (allows_nameless schema)
    (defaults_nameless hschema (Value.defaultDepth names schema)) v schema halone
    (Scope.alone schema) (.refl names)
  have hencode := Value.encode_steady hschema v schema halone (Scope.alone schema) (.refl names)
  rw [← hissues.1] at hissues
  rw [← hencode.1] at hencode
  rw [encodeValue, hschema.names_eq] at h
  simp only at h
  split at h
  · rename_i f hfault
    cases h
    exact hissues.2.stops f hfault
  · rename_i i rest hfound
    cases h
    have hnone := hissues.2.names (i :: rest) hfound
    exact List.any_eq_false.mpr fun i hi => by rw [hnone i hi]; exact Bool.false_ne_true
  · obtain ⟨cause, hcause, rfl⟩ := Option.map_eq_some_iff.mp h
    have hnamed := hencode.2 cause hcause
    cases cause <;> exact hnamed

/-- What stops a datum from being encoded is no name. -/
theorem direct_nameless (hschema : schema.Binds names) (d : α) :
    Stops (·.concerns EncodingFailure.aboutName = false) (direct schema d) := by
  refine (resolve_nameless hschema d).bind fun v _ => ?_
  split
  · exact .ok _
  · rename_i heq
    exact .error (encodeValue_nameless hschema v (congrArg Prod.snd heq))

end Direct

section Runs

variable {α : Type} [Datum α] {schema : Schema} {w : Writer}

/-- The names of the schema are no matter in the write any more: it does not stop for one, and the
scratch for the next write is there. -/
structure Step.NamesKnown (schema : Schema) (s : Step α) : Prop where
  stop : ∀ stop, s.outcome = .error stop → stop.concerns TapeError.aboutName = false
  scratch : freshScratch schema = .ok s.next.scratch

/-- One write of a ready writer for a scoped schema. -/
theorem Step.namesKnown_of_ready {s : Step α} (hscoped : schema.scopedAlone)
    (hw : Ready schema s.writer) : s.NamesKnown schema := by
  obtain ⟨-, names, -, hnames⟩ := bound_of_ready hw
  refine ⟨fun stop hstop => ?_, (hw.write s.datum s.before).scratch_eq⟩
  cases h : direct schema s.datum with
  | error cause =>
    have hcause := direct_nameless ⟨hscoped, hnames⟩ s.datum cause h
    rw [(result_of_error hw h).1] at hstop
    cases hstop
    cases cause <;> exact hcause
  | ok bytes =>
    rw [(result_of_ok hw h).1] at hstop
    cases hio : (s.before.append bytes).drainIfFull.1 with
    | error e => rw [hio] at hstop; cases hstop; rfl
    | ok _ => rw [hio] at hstop; cases hstop

/-- Once a scoped schema is bound, no datum is refused for a name and no write ends the program for
one, whatever was written before; and a new scratch can be made after every failure. -/
theorem names_known (h : create schema = .ok w) (hscoped : schema.scopedAlone) (b : Binding)
    (ds : List α) : ∀ s ∈ w.writeEach b ds, s.NamesKnown schema :=
  fun s hs => Step.namesKnown_of_ready hscoped
    (ready_of_mem_writeEach (ready_of_create h) b ds s hs)

end Runs

/-- Trees of one namespace with leaves of another. The kids of a tree are searched for, and both
kinds of records refer to what was defined before. -/
def tree : Schema :=
  .record ⟨some "a", "Tree"⟩
    [⟨"tint", [], none, .enum ⟨some "a", "Tint"⟩ ["RED", "BLUE"] none⟩,
      ⟨"kids", [], none, .array (.union [.null, .ref ⟨some "a", "Tree"⟩,
        .record ⟨some "b", "Leaf"⟩
          [⟨"tint", [], none, .ref ⟨some "a", "Tint"⟩⟩, ⟨"size", [], none, .int⟩]])⟩]

def treeDatum (tint : String) (kids : List Json) : Json :=
  .object [("kids", .array kids), ("tint", .string tint)]

def leafDatum (size : Int) : Json := .object [("size", .int size), ("tint", .string "BLUE")]

/-- Trees inside a tree are written by the names of their definitions, before and after a tree with
a tint that is none. -/
theorem names_known_tree :
    ∃ w, create tree = .ok w ∧ tree.scopedAlone ∧
      let deep := treeDatum "RED" [.null, treeDatum "BLUE" [leafDatum 3]]
      let ds := [deep, treeDatum "GREEN" [], deep]
      let b := Encoder.default.bind Sink.memory
      (w.encodeEach ds).map Except.toOption =
          [some [0, 4, 0, 2, 2, 2, 4, 2, 6, 0, 0], none, some [0, 4, 0, 2, 2, 2, 4, 2, 6, 0, 0]] ∧
        (w.writeEach b ds).map (·.datum) = ds ∧
        ∀ s ∈ w.writeEach b ds, s.NamesKnown tree := by
  refine ⟨_, rfl, rfl, ?_⟩
  have hready : Ready tree _ := ready_of_create rfl
  have hencoded : (encodeAlone tree : Json → _) = fun d => (direct tree d).mapError .encoding :=
    funext fun d => encodeAlone_of_ready hready d
  refine ⟨?_, ?_, names_known rfl rfl _ _⟩
  · rw [encodeEach_of_ready hready, hencoded]
    decide +kernel
  · rw [map_datum_writeEach hready, hencoded]
    rfl

/-- Lists of records, each with an `X` of no namespace that stands in a namespace and refers to
itself. -/
def loop : Schema :=
  .array (.record ⟨some "a", "S"⟩
    [⟨"x", [], none, .record ⟨none, "X"⟩ [⟨"xs", [], none, .array (.ref ⟨none, "X"⟩)⟩]⟩])

def xDatum (xs : List Json) : Json := .object [("xs", .array xs)]

/-- The schema binds, since `X` is one of the namespace then; but the reference to it stands for
nothing when a value is resolved. -/
theorem encode_loop :
    ∃ w, forSchema loop = .ok w ∧
      (w.encode (Json.array [.object [("x", xDatum [xDatum []])]])).1 =
        .error (.error (.encoding (.mismatch (.unresolved ⟨none, "X"⟩)))) := by
  obtain ⟨w, hw⟩ : ∃ w, forSchema loop = .ok w := ⟨_, rfl⟩
  refine ⟨w, hw, ?_⟩
  rw [encode_ready (ready_of_create (create_of_forSchema hw))]
  rfl

end Writer
end RecordTape
