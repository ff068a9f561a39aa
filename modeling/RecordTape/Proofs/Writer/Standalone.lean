import RecordTape.Proofs.Writer.AnyOrder
import RecordTape.Proofs.Writer.Mapless
/-!
# One datum after another

What a writer makes of a datum has nothing to do with the data before it (`each_alone`). The writer
is `Ready` between two data whatever became of the first, so that each step of a run is one of a new
writer: it gives the bytes that the datum has by itself, or fails as the datum does by itself and
then leaves the binding alone.

The data of a run are encoded each by itself (`encodeEach`) or written into one binding
(`writeEach`). A fault ends the program, so that no datum follows one.

A datum is taken together with the order in which its maps come up. Made once more it may have
another order, and then it is encoded to the same but for that, and to the very same bytes under a
schema without maps.
-/

namespace RecordTape

namespace Outcome

variable {ε α : Type}

/-- The program ends here. -/
def isFault : Outcome ε α → Bool
  | .error (.fault _) => true
  | _ => false

/-- The outcomes up to the first fault, which is the last that comes about. -/
def untilFault : List (Outcome ε α) → List (Outcome ε α)
  | [] => []
  | o :: rest => o :: if o.isFault then [] else untilFault rest

/-- What an operation on a sink comes to. -/
def ofIo : Except IoError α → Outcome TapeError α
  | .ok a => .ok a
  | .error e => .error (.error (.io e))

theorem ofIo_eq_ok {x : Except IoError α} {a : α} : ofIo x = .ok a ↔ x = .ok a := by
  cases x <;> simp [ofIo]

end Outcome

namespace Binding

/-- The bytes that the binding was given and has drained or holds back. -/
def taken (b : Binding) : Bytes := b.sink.accepted ++ b.encoder.buffer

theorem taken_append (b : Binding) (data : Bytes) : (b.append data).taken = b.taken ++ data := by
  simp [taken, append]

/-- A drain that succeeds moves bytes and loses none. -/
theorem taken_drainIfFull {b : Binding} (h : b.drainIfFull.1 = .ok ()) :
    b.drainIfFull.2.taken = b.taken := by
  unfold drainIfFull at h ⊢
  split
  · rename_i hfull
    rw [if_pos hfull] at h
    obtain ⟨haccepted, -, hall⟩ := b.sink.writeAll_spec b.encoder.buffer
    unfold drain at h ⊢
    generalize ByteSink.writeAll b.sink b.encoder.buffer = p at *
    rcases p with ⟨_ | ⟨⟩, sink⟩
    · cases h
    · simp only [hall.mp rfl, List.take_length] at haccepted
      simp [taken, haccepted]
  · rfl

end Binding

namespace Writer

variable {α : Type} [Datum α] {schema : Schema} {w : Writer}

/-- A writer about to write a datum into a binding. -/
structure Step (α : Type) where
  writer : Writer
  datum : α
  before : Binding

namespace Step

def outcome (s : Step α) : Outcome TapeError Unit := (s.writer.write s.datum s.before).1

def next (s : Step α) : Writer := (s.writer.write s.datum s.before).2.1

def after (s : Step α) : Binding := (s.writer.write s.datum s.before).2.2

def byWriter (s : Step α) (w : Writer) : Step α := { s with writer := w }

/-- The same write where another sink is bound. -/
def onto (s : Step α) (sink : Sink) : Step α := { s with before := { s.before with sink := sink } }

/-- The write comes out as if its datum was the only one that its writer had seen. -/
structure Alone (schema : Schema) (s : Step α) : Prop where
  /-- A new writer does the same. -/
  fresh : ∀ w, create schema = .ok w →
    (s.byWriter w).outcome = s.outcome ∧ (s.byWriter w).after = s.after
  /-- The outcome is that of the datum by itself, but for a sink that refuses. -/
  outcome : s.outcome = (fun _ => ()) <$> encodeAlone schema s.datum ∨
    ∃ bytes e, encodeAlone schema s.datum = .ok bytes ∧ s.outcome = .error (.error (.io e))
  /-- An encoding error comes before any byte goes into the buffer and any call on the sink: it is
  the same for every sink, and leaves buffer and sink as they are. -/
  refused : ∀ f, s.outcome = .error (.error (.encoding f)) →
    ∀ sink, (s.onto sink).outcome = s.outcome ∧ (s.onto sink).after = (s.onto sink).before
  /-- A success adds the bytes of the datum by itself. -/
  added : s.outcome = .ok () →
    ∃ bytes, encodeAlone schema s.datum = .ok bytes ∧ s.after.taken = s.before.taken ++ bytes
  /-- The schema is not at fault any more. -/
  bound : ∀ f, s.outcome ≠ .error (.error (.schemaBinding f))

/-- An encoding error of the direct encoding is that of the write, which then does nothing else. -/
theorem result_of_error {s : Step α} (hw : Ready schema s.writer) {stop : Stop EncodingFailure}
    (h : direct schema s.datum = .error stop) :
    s.outcome = .error (stop.map .encoding) ∧ s.after = s.before := by
  simp only [outcome, after, write_ready hw, h, and_self]

/-- Where there is a direct encoding it goes behind the buffer, which is drained if it is full. -/
theorem result_of_ok {s : Step α} (hw : Ready schema s.writer) {bytes : Bytes}
    (h : direct schema s.datum = .ok bytes) :
    s.outcome = Outcome.ofIo (s.before.append bytes).drainIfFull.1 ∧
      s.after = (s.before.append bytes).drainIfFull.2 := by
  simp only [outcome, after, write_ready hw, h, and_true]
  rcases (s.before.append bytes).drainIfFull with ⟨_ | _, _⟩ <;> rfl

/-- One step of a ready writer. -/
theorem alone_of_ready {s : Step α} (hw : Ready schema s.writer) : s.Alone schema := by
  have hdirect := encodeAlone_of_ready hw s.datum
  cases h : direct schema s.datum with
  | error stop =>
    rw [h] at hdirect
    obtain ⟨houtcome, hafter⟩ := result_of_error hw h
    refine ⟨fun w hcreate => ?_, .inl ?_, fun f _ sink => ?_, fun hok => ?_, fun f hf => ?_⟩
    · have hnew := result_of_error (s := s.byWriter w) (ready_of_create hcreate) h
      exact ⟨hnew.1.trans houtcome.symm, hnew.2.trans hafter.symm⟩
    · rw [houtcome, hdirect]; rfl
    · have hother := result_of_error (s := s.onto sink) hw h
      exact ⟨hother.1.trans houtcome.symm, hother.2⟩
    · rw [houtcome] at hok; cases hok
    · rw [houtcome] at hf; cases stop <;> cases hf
  | ok bytes =>
    rw [h] at hdirect
    obtain ⟨houtcome, hafter⟩ := result_of_ok hw h
    have hcases : s.outcome = .ok () ∨ ∃ e, s.outcome = .error (.error (.io e)) := by
      rw [houtcome]
      rcases (s.before.append bytes).drainIfFull.1 with e | _
      · exact .inr ⟨e, rfl⟩
      · exact .inl rfl
    refine ⟨fun w hcreate => ?_, ?_, fun f hf => ?_, fun hok => ⟨bytes, hdirect, ?_⟩,
      fun f hf => ?_⟩
    · have hnew := result_of_ok (s := s.byWriter w) (ready_of_create hcreate) h
      exact ⟨hnew.1.trans houtcome.symm, hnew.2.trans hafter.symm⟩
    · rw [hdirect]
      exact hcases.imp id fun ⟨e, he⟩ => ⟨bytes, e, rfl, he⟩
    · rcases hcases with hok | ⟨e, he⟩
      · rw [hok] at hf; cases hf
      · rw [he] at hf; cases hf
    · rw [houtcome] at hok
      rw [hafter, Binding.taken_drainIfFull (Outcome.ofIo_eq_ok.mp hok), Binding.taken_append]
    · rcases hcases with hok | ⟨e, he⟩
      · rw [hok] at hf; cases hf
      · rw [he] at hf; cases hf

end Step

/-! ## Runs -/

def writeEach (w : Writer) (b : Binding) : List α → List (Step α)
  | [] => []
  | d :: rest =>
    let s : Step α := ⟨w, d, b⟩
    s :: if s.outcome.isFault then [] else writeEach s.next s.after rest

/-- What becomes of data that are encoded each by itself. -/
def encodeEach (w : Writer) : List α → List (Outcome TapeError Bytes)
  | [] => []
  | d :: rest =>
    let (outcome, w) := w.encode d
    outcome :: if outcome.isFault then [] else encodeEach w rest

/-- A writer is ready again after encoding a datum by itself. -/
theorem Ready.encode (hw : Ready schema w) (d : α) : Ready schema (w.encode d).2 := by
  have hnext := hw.write d (Encoder.default.bind Sink.memory)
  unfold Writer.encode
  generalize w.write d (Encoder.default.bind Sink.memory) = p at hnext ⊢
  rcases p with ⟨_ | _, w', b⟩
  · exact hnext
  · simp only
    rcases b.flush with ⟨_ | _, _⟩ <;> exact hnext

theorem encodeEach_of_ready (hw : Ready schema w) (ds : List α) :
    w.encodeEach ds = Outcome.untilFault (ds.map (encodeAlone schema)) := by
  induction ds generalizing w with
  | nil => rfl
  | cons d rest ih =>
    have hfirst : (w.encode d).1 = encodeAlone schema d := by
      rw [encode_ready hw, encodeAlone_of_ready hw]
    simp only [encodeEach, List.map_cons, Outcome.untilFault, hfirst, ih (hw.encode d)]

/-- The writer is ready before each write of a run. -/
theorem ready_of_mem_writeEach (hw : Ready schema w) (b : Binding) (ds : List α) :
    ∀ s ∈ w.writeEach b ds, Ready schema s.writer := by
  induction ds generalizing w b with
  | nil => simp [writeEach]
  | cons d rest ih =>
    intro s hs
    rw [writeEach, List.mem_cons] at hs
    rcases hs with rfl | hs
    · exact hw
    · split at hs
      · cases hs
      · exact ih (hw.write d b) _ s hs

theorem alone_of_mem_writeEach (hw : Ready schema w) (b : Binding) (ds : List α) :
    ∀ s ∈ w.writeEach b ds, s.Alone schema :=
  fun s hs => Step.alone_of_ready (ready_of_mem_writeEach hw b ds s hs)

/-- The sink has no part in whether a datum ends the program. -/
theorem Step.Alone.isFault {s : Step α} (h : s.Alone schema) :
    s.outcome.isFault = (encodeAlone schema s.datum).isFault := by
  rcases h.outcome with h | ⟨bytes, e, hbytes, h⟩
  · rw [h]; rcases encodeAlone schema s.datum with (_ | _) | _ <;> rfl
  · rw [h, hbytes]; rfl

theorem map_datum_writeEach (hw : Ready schema w) (b : Binding) (ds : List α) :
    (w.writeEach b ds).map (·.datum) =
      ds.take (Outcome.untilFault (ds.map (encodeAlone schema))).length := by
  induction ds generalizing w b with
  | nil => rfl
  | cons d rest ih =>
    have hstep : (⟨w, d, b⟩ : Step α).Alone schema := Step.alone_of_ready hw
    simp only [writeEach, List.map_cons, Outcome.untilFault, hstep.isFault]
    split
    · rfl
    · rw [List.length_cons, List.take_succ_cons]
      exact congrArg _ (ih (hw.write d b) _)

/-- An outcome that comes about is that of its place. -/
theorem getElem?_untilFault {ε β : Type} {outcomes : List (Outcome ε β)} {i : Nat}
    {outcome : Outcome ε β} (h : (Outcome.untilFault outcomes)[i]? = some outcome) :
    outcomes[i]? = some outcome := by
  induction outcomes generalizing i with
  | nil => cases h
  | cons first rest ih =>
    rw [Outcome.untilFault] at h
    cases i with
    | zero => exact h
    | succ i =>
      rw [List.getElem?_cons_succ] at h ⊢
      split at h
      · cases h
      · exact ih h

/-- Whatever data come before, a writer makes of each datum what a new one makes of it alone, as far
as no fault ends the program. A new writer that meets the datum on another occasion makes the same
of it, but for the order of maps if the schema has any. -/
theorem each_alone (h : create schema = .ok w) (b : Binding) (ds : List (Arranged α)) :
    w.encodeEach ds = Outcome.untilFault (ds.map (encodeAlone schema)) ∧
      (w.writeEach b ds).map (·.datum) = ds.take (w.encodeEach ds).length ∧
      (∀ s ∈ w.writeEach b ds, s.Alone schema) ∧
      ∀ (i : Nat) (outcome : Outcome TapeError Bytes), (w.encodeEach ds)[i]? = some outcome →
        ∀ e : Arranged α, (ds.map (·.datum))[i]? = some e.datum →
          UpToOrder schema outcome (encodeAlone schema e) ∧
            (schema.isMapless → outcome = encodeAlone schema e) := by
  have hw := ready_of_create h
  have hencoded := encodeEach_of_ready hw ds
  refine ⟨hencoded, ?_, alone_of_mem_writeEach hw b ds, fun i outcome houtcome e he => ?_⟩
  · rw [hencoded]
    exact map_datum_writeEach hw b ds
  · rw [hencoded] at houtcome
    have hplace := getElem?_untilFault houtcome
    rw [List.getElem?_map, Option.map_eq_some_iff] at hplace he
    obtain ⟨d, hd, rfl⟩ := hplace
    obtain ⟨d', hd', hdatum⟩ := he
    cases hd.symm.trans hd'
    refine ⟨encodeAlone_upToOrder hdatum.symm, fun hs => ?_⟩
    rw [encodeAlone_mapless hs d, encodeAlone_mapless hs e, hdatum]

/-- Records with a name of no namespace inside a namespace: `j` is resolved as the outer `X` and
written as the inner one, which has a field more. -/
def shadowed : Schema :=
  .record ⟨none, "R"⟩
    [⟨"n", [], none, .int⟩,
      ⟨"p", [], none, .union [.null, .record ⟨none, "X"⟩ [⟨"q", [], none, .int⟩]]⟩,
      ⟨"g", [], none, .record ⟨some "a", "S"⟩
        [⟨"x", [], none, .union [.null, .record ⟨some "a", "X"⟩
            [⟨"u", [], none, .union [.null, .int]⟩, ⟨"q", [], none, .int⟩]]⟩,
          ⟨"h", [], none, .record ⟨none, "T"⟩
            [⟨"j", [], none, .union [.null, .ref ⟨none, "X"⟩]⟩]⟩]⟩,
      ⟨"m", [], none, .map .int⟩]

def shadowedDatum (order : Arrangement) (n : Int) (j : Json) : Arranged Json :=
  ⟨.object [("g", .object [("h", .object [("j", j)]), ("x", .null)]),
    ("m", .object [("a", .int 1), ("b", .int 2)]), ("n", .int n), ("p", .null)], order, .listed⟩

/-- A datum that is written after one whose encoding stopped in its fifth byte, and one that was
refused before. Alone and with its map in the other order it is encoded to the same but for that. -/
theorem each_alone_after_failures :
    ∃ w, create shadowed = .ok w ∧
      let midway := shadowedDatum .listed 7 (.object [("q", .int 5)])
      let last := shadowedDatum .listed 7 .null
      let ds := [midway, shadowedDatum .listed 4294967303 .null, last]
      let b := Encoder.default.bind Sink.memory
      (resolve shadowed midway).toOption.map (fun v => (encodeValue shadowed v).1) =
          some [14, 0, 0, 2] ∧
        (w.encodeEach ds).map Except.toOption =
          [none, none, some [14, 0, 0, 0, 4, 2, 97, 2, 2, 98, 4, 0]] ∧
        (w.writeEach b ds).map (·.datum) = ds ∧
        (∀ s ∈ w.writeEach b ds, s.Alone shadowed) ∧
        UpToOrder shadowed (.ok [14, 0, 0, 0, 4, 2, 97, 2, 2, 98, 4, 0])
          (encodeAlone shadowed (shadowedDatum .backwards 7 .null)) ∧
        (encodeAlone shadowed (shadowedDatum .backwards 7 .null)).toOption =
          some [14, 0, 0, 0, 4, 2, 98, 4, 2, 97, 2, 0] := by
  obtain ⟨w, hw⟩ : ∃ w, create shadowed = .ok w := ⟨_, rfl⟩
  have hdirect : (encodeAlone shadowed : Arranged Json → _) =
      fun d => (direct shadowed d).mapError .encoding :=
    funext fun d => encodeAlone_of_ready (ready_of_create hw) d
  refine ⟨w, hw, ?_⟩
  intro midway last ds b
  obtain ⟨hencoded, hwritten, halone, horder⟩ := each_alone hw b ds
  rw [hdirect] at hencoded
  have houtcomes : (w.encodeEach ds).map Except.toOption =
      [none, none, some [14, 0, 0, 0, 4, 2, 97, 2, 2, 98, 4, 0]] := by
    rw [hencoded]; decide +kernel
  refine ⟨by decide +kernel, houtcomes, ?_, halone, ?_, ?_⟩
  · rw [hwritten, hencoded]; rfl
  · have hlast := congrArg (·[2]?) houtcomes
    rw [List.getElem?_map] at hlast
    obtain ⟨outcome, houtcome, hbytes⟩ := Option.map_eq_some_iff.mp hlast
    rcases outcome with _ | _ <;> cases hbytes
    exact (horder 2 _ houtcome (shadowedDatum .backwards 7 .null) rfl).1
  · rw [hdirect]; decide +kernel

end Writer
end RecordTape
