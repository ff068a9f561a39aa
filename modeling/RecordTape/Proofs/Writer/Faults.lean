import RecordTape.Datum.Typed
import RecordTape.Proofs.Value.Widening
import RecordTape.Proofs.Writer.NamesKnown
import RecordTape.Proofs.Writer.ReadBack
/-!
# Writes that end the program

A datum that resolution or validation does not accept is refused with an encoding error, and one
that they accept is written, or the sink is at fault. There are three exceptions. An accepted datum
may hold a decimal that is too wide for its fixed, because only writing finds that out; and under a
schema with decimals or defaults resolution itself may come to grief, which is a `Hazard` of the
schema. `write_ends` says of each write of a run which of these it is.
-/

namespace RecordTape

open Schema (Settled)

/-- The ways in which a schema may end the program before a datum is written: by a decimal of so
many bytes that their bits are not counted, or by a default that cannot be resolved. -/
inductive Schema.Hazard (schema : Schema) (names : Names) : Fault → Prop
  | long {base : DecimalBase} {precision scale length : Nat} :
    (Schema.decimal base precision scale).Within schema → int32Bound ≤ 8 * (length : Int) →
    Hazard schema names (.bitLengthOverflow length)
  | default {name : Name} {fields : List (Field Schema)} {field : Field Schema} {f : Fault} :
    (Schema.record name fields).Within schema → field ∈ fields →
    Fallback.ofDepth (Value.defaultDepth names schema) names none field = .error (.fault f) →
    Hazard schema names f

namespace Writer

open Outcome (Stops)

variable {α : Type} [Datum α] {schema : Schema} {names : Names}

/-- The datum is resolved to this value, and the value is valid. -/
structure Accepts (schema : Schema) (names : Names) (d : α) (v : Value) : Prop where
  resolved : resolve schema d = .ok v
  valid : v.issues (Fallback.ofDepth (Value.defaultDepth names schema)) names schema.ns schema =
    .ok []

/-! ## Before writing -/

/-- A stop before writing is an error or a hazard, and no matter of a decimal's width. -/
def Foreseen (schema : Schema) (names : Names) {ε : Type} (stop : Stop ε) : Prop :=
  ∀ f, stop = .fault f → schema.Hazard names f ∧ ∀ size, f ≠ .decimalTooWide size

theorem allows_foreseen : Allows schema (Foreseen schema names) :=
  ⟨fun _ _ => by rintro _ ⟨⟩, fun _ _ _ _ hin hlong => by
    rintro _ ⟨⟩
    exact ⟨.long hin hlong, by rintro _ ⟨⟩⟩⟩

/-- Whatever fault a default ends in, it is a hazard of the schema. -/
theorem defaults_foreseen (hschema : schema.Binds names) :
    (Fallback.ofDepth (Value.defaultDepth names schema)).Steady schema names
      (Foreseen schema names) := by
  -- The width of a decimal is no matter in a default either.
  have hnarrow : Allows schema fun stop => ∀ size, stop ≠ .fault (.decimalTooWide size) :=
    ⟨fun _ _ => by rintro _ ⟨⟩, fun _ _ _ _ _ _ => by rintro _ ⟨⟩⟩
  intro bare ns names' name fields hin field hfield hs hscope hmore
  obtain ⟨heq, hstops⟩ := Fallback.ofDepth_steady hschema hnarrow (by rintro _ ⟨⟩) (by rintro _ ⟨⟩)
    (Value.defaultDepth names schema) hin field hfield hs hscope hmore
  refine ⟨heq, fun stop hstop f hf => ?_⟩
  subst hf
  exact ⟨.default hin hfield hstop, fun size hsize => hstops _ hstop size (hsize ▸ rfl)⟩

theorem resolve_foreseen (hschema : schema.Binds names) (d : α) :
    Stops (Foreseen schema names) (resolve schema d) := by
  refine resolve_stops hschema allows_foreseen (defaults_foreseen hschema) d
    (fun _ => by rintro _ ⟨⟩) (fun stop hstop => ?_) (fun _ => by rintro _ ⟨⟩)
  rintro f hf
  cases stop with
  | error e => cases hf
  | fault g => cases hf; exact hstop f rfl

/-- What stops a datum that is not accepted was foreseen. -/
theorem direct_foreseen (hschema : schema.Binds names) {d : α}
    (hd : ∀ v, ¬ Accepts schema names d v) :
    ∃ stop, direct schema d = .error stop ∧ Foreseen schema names stop := by
  cases hresolve : resolve schema d with
  | error stop =>
    exact ⟨stop, by rw [direct, hresolve]; rfl, resolve_foreseen hschema d stop hresolve⟩
  | ok v =>
    have hissues := Value.issues_steady hschema allows_foreseen (defaults_foreseen hschema) v schema
      (Settled.alone hschema) (Scope.alone schema) (.refl names)
    rw [← hissues.1] at hissues
    have hdirect := direct_of_resolve hresolve
    rw [encodeValue, hschema.names_eq] at hdirect
    cases hvalid : v.issues (Fallback.ofDepth (Value.defaultDepth names schema)) names schema.ns
        schema with
    | error f =>
      simp only [hvalid] at hdirect
      exact ⟨_, hdirect, by rintro _ ⟨⟩; exact hissues.2.stops f hvalid f rfl⟩
    | ok found =>
      cases found with
      | nil => exact absurd ⟨hresolve, hvalid⟩ (hd v)
      | cons i rest =>
        simp only [hvalid] at hdirect
        exact ⟨_, hdirect, by rintro _ ⟨⟩⟩

/-! ## Writing -/

/-- An accepted datum has the bytes of its value, as far as these can be written. -/
theorem direct_of_accepts (hnames : schema.names = .ok names) {d : α} {v : Value}
    (h : Accepts schema names d v) : direct schema d =
      match (v.encode names schema.ns schema).stop with
      | none => .ok (v.encode names schema.ns schema).bytes
      | some stop => .error (stop.map .encode) := by
  rw [direct_of_resolve h.resolved, encodeValue, hnames]
  simp only [h.valid]
  cases (v.encode names schema.ns schema).stop <;> rfl

/-- An accepted datum is written to the end unless it holds a decimal that is too wide. -/
theorem accepts_widens {strict : Bool} {d : α} {v : Value} (hs : schema.regularAlone strict)
    (hnames : schema.names = .ok names) (hd : Datum.WellFormed d) (h : Accepts schema names d v) :
    (v.encode names schema.ns schema).Widens (Value.TooWide names schema v) := by
  obtain ⟨names', hnames', hform⟩ := resolve_hasForm hs hd h.resolved
  cases hnames.symm.trans hnames'
  exact Value.encode_widens (Schema.names_regular hs hnames) hform hs (Scope.alone schema)

/-! ## Runs -/

/-- How the write of a datum may end. -/
inductive Ends (schema : Schema) (names : Names) (d : α) : Outcome TapeError Unit → Prop
  | written {v : Value} : Accepts schema names d v →
    (∀ size, ¬ Value.TooWide names schema v size) → Ends schema names d (.ok ())
  | sink {v : Value} (e : IoError) : Accepts schema names d v →
    (∀ size, ¬ Value.TooWide names schema v size) → Ends schema names d (.error (.error (.io e)))
  | refused (e : EncodingFailure) : (∀ v, ¬ Accepts schema names d v) →
    Ends schema names d (.error (.error (.encoding e)))
  | tooWide {v : Value} {size : Nat} : Accepts schema names d v →
    Value.TooWide names schema v size → Ends schema names d (.error (.fault (.decimalTooWide size)))
  | hazard {f : Fault} : (∀ v, ¬ Accepts schema names d v) → schema.Hazard names f →
    (∀ size, f ≠ .decimalTooWide size) → Ends schema names d (.error (.fault f))

/-- Under a schema with no decimals and with defaults that can be resolved no datum ends the
program: it is written, refused with an encoding error, or stopped by the sink. -/
theorem Ends.ne_fault {d : α} {o : Outcome TapeError Unit} (h : Ends schema names d o)
    (hnames : schema.names = .ok names)
    (hdecimals : ∀ base precision scale, ¬ (Schema.decimal base precision scale).Within schema)
    (hdefaults : ∀ name fields, (Schema.record name fields).Within schema → ∀ field ∈ fields, ∀ f,
      Fallback.ofDepth (Value.defaultDepth names schema) names none field ≠ .error (.fault f))
    (f : Fault) : o ≠ .error (.fault f) := by
  rintro rfl
  cases h with
  | tooWide _ hwide =>
    obtain ⟨name, precision, scale, hin⟩ := hwide.within hnames (.refl schema)
    exact hdecimals _ _ _ hin
  | hazard _ hhazard _ =>
    cases hhazard with
    | long hin _ => exact hdecimals _ _ _ hin
    | default hin hfield hfault => exact hdefaults _ _ hin _ hfield _ hfault

/-- One write of a ready writer. -/
theorem Step.ends_of_ready {strict : Bool} {s : Step α} (hs : schema.regularAlone strict)
    (hnames : schema.names = .ok names) (hd : Datum.WellFormed s.datum)
    (hw : Ready schema s.writer) : Ends schema names s.datum s.outcome := by
  by_cases haccepts : ∃ v, Accepts schema names s.datum v
  · obtain ⟨v, hv⟩ := haccepts
    have hdirect := direct_of_accepts hnames hv
    rcases accepts_widens hs hnames hd hv with ⟨hstop, hnarrow⟩ | ⟨size, hwide, hstop⟩
    · rw [hstop] at hdirect
      rw [(result_of_ok hw hdirect).1]
      cases (s.before.append (v.encode names schema.ns schema).bytes).drainIfFull.1 with
      | error e => exact .sink e hv hnarrow
      | ok _ => exact .written hv hnarrow
    · rw [hstop] at hdirect
      rw [(result_of_error hw hdirect).1]
      exact .tooWide hv hwide
  · have hnone := not_exists.mp haccepts
    have hschema : schema.Binds names := ⟨Schema.isScoped_of_isRegular schema hs, hnames⟩
    obtain ⟨stop, hdirect, hforeseen⟩ := direct_foreseen hschema hnone
    rw [(result_of_error hw hdirect).1]
    cases stop with
    | error e => exact .refused e hnone
    | fault f => exact .hazard hnone (hforeseen f rfl).1 (hforeseen f rfl).2

/-- Each write of a run ends in one of these ways. A datum that is not accepted is refused with an
encoding error, if the schema has no hazards; an accepted one is written unless a decimal inside it
is too wide or the sink fails. -/
theorem write_ends {strict : Bool} {w : Writer} (h : create schema = .ok w)
    (hs : schema.regularAlone strict) (b : Binding) (ds : List α)
    (hds : ∀ d ∈ ds, Datum.WellFormed d) :
    ∃ names, schema.names = .ok names ∧
      ∀ s ∈ w.writeEach b ds, Ends schema names s.datum s.outcome := by
  have hw := ready_of_create h
  obtain ⟨-, names, -, hnames⟩ := bound_of_ready hw
  refine ⟨names, hnames, fun s hmem => ?_⟩
  have hdatum : s.datum ∈ ds := by
    have hmap := List.mem_map_of_mem (f := Step.datum) hmem
    rw [map_datum_writeEach hw] at hmap
    exact List.mem_of_mem_take hmap
  exact Step.ends_of_ready hs hnames (hds s.datum hdatum) (ready_of_mem_writeEach hw b ds s hmem)

/-- Invoices with a total of two bytes, lines that are invoices, and a note. -/
def invoice : Schema :=
  .record ⟨some "shop", "Invoice"⟩
    [⟨"total", [], none, .decimal (.fixed ⟨some "shop", "Sum"⟩ 2) 4 2⟩,
      ⟨"lines", [], none, .array (.union [.null, .ref ⟨some "shop", "Invoice"⟩])⟩,
      ⟨"note", [], some (.string ""), .string⟩]

def invoiceDatum (total : Typed) (lines : List Typed) : Typed :=
  .struct [("lines", .seq lines), ("total", total)]

/-- Three bytes with a sign in front fit two, a text is no decimal, and three bytes that are all
needed end the program. -/
theorem write_ends_invoice :
    ∃ w, create invoice = .ok w ∧ invoice.regularAlone false ∧
      let ds := [invoiceDatum (.bytes [0, 1, 44]) [.none, invoiceDatum (.bytes [0, 7]) []],
        invoiceDatum (.string "1") [],
        invoiceDatum (.bytes [0, 4]) [invoiceDatum (.bytes [1, 0, 0]) []]]
      let b := Encoder.default.bind Sink.memory
      (∀ d ∈ ds, Datum.WellFormed d) ∧
        (w.encodeEach ds).map (fun o => (o.toOption, o.isFault)) =
          [(some [1, 44, 4, 0, 2, 0, 7, 0, 0, 0, 0], false), (none, false), (none, true)] ∧
        ∃ names, invoice.names = .ok names ∧
          ∀ s ∈ w.writeEach b ds, Ends invoice names s.datum s.outcome := by
  have hds : ∀ d ∈ [invoiceDatum (.bytes [0, 1, 44]) [.none, invoiceDatum (.bytes [0, 7]) []],
      invoiceDatum (.string "1") [],
      invoiceDatum (.bytes [0, 4]) [invoiceDatum (.bytes [1, 0, 0]) []]], Datum.WellFormed d := by
    intro d hd
    simp only [List.mem_cons, List.not_mem_nil, or_false] at hd
    rcases hd with rfl | rfl | rfl <;> rintro _ ⟨⟩ <;> decide
  have hregular : invoice.regularAlone false := rfl
  refine ⟨_, rfl, hregular, hds, ?_, write_ends rfl hregular _ _ hds⟩
  have hready : Ready invoice _ := ready_of_create rfl
  have hencoded : (encodeAlone invoice : Typed → _) =
      fun d => (direct invoice d).mapError .encoding :=
    funext fun d => encodeAlone_of_ready hready d
  rw [encodeEach_of_ready hready, hencoded]
  decide +kernel

def digits : Schema := .decimal (.fixed ⟨none, "D"⟩ 1) 2 0

/-- Two bytes for a decimal of one byte are neither written nor refused. -/
theorem encode_digits :
    ∃ w, forSchema digits = .ok w ∧
      (w.encode (Typed.bytes [0x7f, 0xff])).1 = .error (.fault (.decimalTooWide 1)) := by
  obtain ⟨w, hw⟩ : ∃ w, forSchema digits = .ok w := ⟨_, rfl⟩
  refine ⟨w, hw, ?_⟩
  rw [encode_ready (ready_of_create (create_of_forSchema hw))]
  rfl

end Writer
end RecordTape
