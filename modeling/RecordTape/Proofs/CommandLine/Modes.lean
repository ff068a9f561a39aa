import RecordTape.Proofs.Blob.HexLines
import RecordTape.Proofs.CommandLine.Run
import RecordTape.Proofs.Serializer.Lockstep
import RecordTape.Proofs.Serializer.Mapless
/-!
# The two modes of output

The mode is looked at when a blob is put into the output and nowhere else. So encoding goes through
the same states in both modes, stops at the same line and logs the same (`encodeLines_eq`, by
induction on the lines from any state of the serializer), and two command lines that ask for the
same but for the mode have runs that end alike and write the same blobs, once behind their lengths
and once as lines of digits (`run_modes`). That `--hex` may be put before any command line is
`parse_hex`.

Two runs may also differ in the order in which maps come up. Then the serializers of both are in
lockstep from line to line (`encodeBlobs_inStep`): the blobs differ in that order and the report of
a refused record in what it names, and nothing else does, unless a fault ends one of the runs. Under
a topic without maps nothing differs at all (`encode_bare`).
-/

namespace RecordTape

namespace CommandLine

open Serializer (CallsInStep Lockstep SameBlob)

variable {κ ν : Type}

/-! ## Encoding -/

/-- What the lines of an input come to before it is put into an output. -/
structure Encoding (κ : Type) where
  serializer : Serializer κ
  blobs : List Bytes
  log : List LogLine
  ending : Ending

namespace Encoding

def put (hex : Bool) (e : Encoding κ) : Encoded κ :=
  ⟨e.serializer, e.blobs.flatMap (writeBlob hex), e.log, e.ending⟩

def after (blob : Bytes) (log : List LogLine) (e : Encoding κ) : Encoding κ :=
  { e with blobs := blob :: e.blobs, log := log ++ e.log }

/-- With the summary, once all lines are done. -/
def summed (e : Encoding κ) : Encoding κ :=
  match e.ending with
  | .done => { e with log := e.log ++ [summary e.serializer.stats] }
  | _ => e

end Encoding

section Draws

variable [Datum κ] [Datum ν]

/-- The blobs of lines from number `line` on, up to the first that fails. -/
def encodeBlobs (draw : Draw κ ν) : (line : Nat) → Serializer κ → List Bytes → Encoding κ
  | _, s, [] => ⟨s, [], [], .done⟩
  | line, s, content :: rest =>
    match LineContent.ofBytes content with
    | .notText => ⟨s, [], [], .failed (.readInput .notText)⟩
    | .blank => encodeBlobs draw (line + 1) s rest
    | .invalid => ⟨s, [], [], .failed (.invalidRecord line)⟩
    | .record r =>
      let call := s.serialize (draw line r) Sink.memory
      let keyLog := call.event.toList.map (keyLine s.topic)
      match call.result with
      | .error stop => ⟨call.serializer, [], keyLog, .ofStop (.serialize line) stop⟩
      | .ok () =>
        let blob := call.sink.accepted
        let log := keyLog ++
          [⟨.debug, "Line " ++ toString line ++ " -> " ++ toString blob.length ++ " bytes"⟩]
        (encodeBlobs draw (line + 1) call.serializer rest).after blob log

/-- A line is read before the mode is looked at, and a record is serialized before it too. -/
theorem encodeLines_eq (draw : Draw κ ν) (hex : Bool) (line : Nat) (s : Serializer κ)
    (lines : List Bytes) :
    encodeLines draw hex line s lines = (encodeBlobs draw line s lines).put hex := by
  induction lines generalizing line s with
  | nil => rfl
  | cons content lines ih =>
    simp only [encodeLines, encodeBlobs]
    cases LineContent.ofBytes content with
    | notText | invalid => rfl
    | blank => exact ih (line + 1) s
    | record r =>
      simp only
      cases (s.serialize (draw line r) Sink.memory).result with
      | error stop => rfl
      | ok _ =>
        simp only [ih]
        rfl

theorem encodeInput_eq_put (draw : Draw κ ν) (hex : Bool) (s : Serializer κ) (input : Bytes) :
    encodeInput draw hex s input = (encodeBlobs draw 1 s (linesOf input)).summed.put hex := by
  simp only [encodeInput, encodeLines_eq, Encoding.put, Encoding.summed]
  generalize encodeBlobs draw 1 s (linesOf input) = e
  obtain ⟨s, blobs, log, _ | f | f⟩ := e <;> rfl

end Draws

/-! ## Encoding twice -/

/-- The same ending, but for what the report of a refused record names. -/
inductive SameEnding : Ending → Ending → Prop
  | same (ending : Ending) : SameEnding ending ending
  | refused (line : Nat) (e e' : EncodingFailure) :
    SameEnding (.failed (.serialize line (.encoding e))) (.failed (.serialize line (.encoding e')))

/-- Lines that come to the same blobs but for the order of maps, unless a fault ends one of the
runs. -/
inductive Encoding.InStep (t : Topic) (e e' : Encoding κ) : Prop
  | ended : SameEnding e.ending e'.ending → e'.log = e.log →
    (e.ending = .done → e'.serializer.stats = e.serializer.stats) →
    List.Forall₂ (SameBlob t) e.blobs e'.blobs → InStep t e e'
  | fault_left (f : Fault) : e.ending = .fault f → InStep t e e'
  | fault_right (f : Fault) : e'.ending = .fault f → InStep t e e'

namespace Encoding.InStep

variable {t : Topic}

/-- Nothing was written, and the end is the same. -/
theorem none {s s' : Serializer κ} (hstats : s'.stats = s.stats) (log : List LogLine)
    (ending : Ending) : InStep t ⟨s, [], log, ending⟩ ⟨s', [], log, ending⟩ :=
  .ended (.same ending) rfl (fun _ => hstats) .nil

theorem after {e e' : Encoding κ} (h : InStep t e e') {blob blob' : Bytes}
    (hblob : SameBlob t blob blob') (log : List LogLine) :
    InStep t (e.after blob log) (e'.after blob' log) := by
  cases h with
  | ended hending hlog hstats hblobs =>
    exact .ended hending (congrArg (log ++ ·) hlog) hstats (.cons hblob hblobs)
  | fault_left f hf => exact .fault_left f hf
  | fault_right f hf => exact .fault_right f hf

theorem summed {e e' : Encoding κ} (h : InStep t e e') : InStep t e.summed e'.summed := by
  obtain ⟨s, blobs, log, ending⟩ := e
  obtain ⟨s', blobs', log', ending'⟩ := e'
  cases h with
  | ended hending hlog hstats hblobs =>
    cases hlog
    cases hending with
    | refused line e e' => exact .ended (.refused line e e') rfl nofun hblobs
    | same =>
      cases ending with
      | done =>
        have hsummary := congrArg summary (hstats rfl)
        exact .ended (.same _) (congrArg (log ++ [·]) hsummary) hstats hblobs
      | failed f => exact .ended (.same _) rfl nofun hblobs
      | fault f => exact .fault_left f rfl
  | fault_left f hf => cases hf; exact .fault_left f rfl
  | fault_right f hf => cases hf; exact .fault_right f rfl

end Encoding.InStep

/-- Lines are encoded in lockstep, in whatever orders the maps of each record come up. -/
theorem encodeBlobs_inStep {t : Topic} {c : SerializerConfig}
    (orders orders' : Nat → Record Orders Orders) {s s' : Serializer (Arranged Json)}
    (h : Lockstep t c s s') (line : Nat) (lines : List Bytes) :
    Encoding.InStep t (encodeBlobs (.inOrders orders) line s lines)
      (encodeBlobs (.inOrders orders') line s' lines) := by
  induction lines generalizing line s s' with
  | nil => exact .none h.stats.symm [] .done
  | cons content lines ih =>
    unfold encodeBlobs
    cases LineContent.ofBytes content with
    | notText | invalid => exact .none h.stats.symm [] _
    | blank => exact ih h (line + 1)
    | record r =>
      have hcalls : CallsInStep t c (s.serialize (Draw.inOrders orders line r) Sink.memory)
          (s'.serialize (Draw.inOrders orders' line r) Sink.memory) :=
        Serializer.serialize_lockstep h rfl rfl
      simp only
      generalize s.serialize (Draw.inOrders orders line r) Sink.memory = a at hcalls
      generalize s'.serialize (Draw.inOrders orders' line r) Sink.memory = b at hcalls
      cases hcalls with
      | written ha hb hblob hevent hnext =>
        simp only [ha, hb, hevent, h.topic, hblob.length_eq]
        exact (ih hnext (line + 1)).after hblob _
      | refused e e' ha hb hevent =>
        simp only [ha, hb, hevent, h.topic]
        exact .ended (.refused line e e') rfl nofun .nil
      | fault_left f ha =>
        simp only [ha]
        exact .fault_left f rfl
      | fault_right f hb =>
        simp only [hb]
        exact .fault_right f rfl

/-! ## Running -/

/-- Runs that end alike, log the same and write to the same place: the first one frames of blobs,
the second one lines of blobs, which can be read from the lines. -/
structure Outcome.Parallel (place : Option String) (blobs blobs' : List Bytes)
    (binary hex : Outcome) : Prop where
  code : hex.code = binary.code
  log : hex.log = binary.log
  frames : binary.Wrote place (blobs.flatMap Blob.frame)
  lines : hex.Wrote place (blobs'.flatMap Blob.hexLine)
  spelled : ∀ read, Blob.Spells (blobs'.flatMap Blob.hexLine) read ↔ read = blobs'

/-- A run that ends before it looks at the mode writes nothing. -/
theorem Outcome.Parallel.early (log : List LogLine) (ending : Ending) :
    Parallel none [] [] (.early log ending) (.early log ending) :=
  ⟨rfl, rfl, ⟨rfl, rfl⟩, ⟨rfl, rfl⟩, fun _ => Blob.spells_hexLines_iff⟩

/-- What is put into its place and logged besides, once there is a place for it. -/
def Encoding.sent (hex : Bool) (log : List LogLine) (e : Encoding κ) : Option String → Outcome
  | none => ⟨e.ending.code, (e.put hex).output, none, log ++ e.log, e.ending.report⟩
  | some _ => ⟨e.ending.code, [], some (e.put hex).output, log ++ e.log, e.ending.report⟩

theorem Encoding.code_sent (hex : Bool) (log : List LogLine) (e : Encoding κ)
    (place : Option String) : (e.sent hex log place).code = e.ending.code := by
  cases place <;> rfl

theorem Encoding.error_sent (hex : Bool) (log : List LogLine) (e : Encoding κ)
    (place : Option String) : (e.sent hex log place).error = e.ending.report := by
  cases place <;> rfl

/-- The same code and log make runs parallel, with the blobs that each of them has. -/
theorem Encoding.parallel {e e' : Encoding κ} (hcode : e'.ending.code = e.ending.code)
    (hlog : e'.log = e.log) (log : List LogLine) (place : Option String) :
    Outcome.Parallel place e.blobs e'.blobs (e.sent false log place) (e'.sent true log place) := by
  have hspelled (read : List Bytes) :
      Blob.Spells (e'.blobs.flatMap Blob.hexLine) read ↔ read = e'.blobs :=
    Blob.spells_hexLines_iff
  cases place with
  | none => exact ⟨hcode, congrArg (log ++ ·) hlog, ⟨rfl, rfl⟩, ⟨rfl, rfl⟩, hspelled⟩
  | some _ => exact ⟨hcode, congrArg (log ++ ·) hlog, ⟨rfl, rfl⟩, ⟨rfl, rfl⟩, hspelled⟩

/-- Before the mode is looked at and the first line is read, a run has ended, or it has all that it
needs. -/
theorem encode_cases (κ ν : Type) [Datum κ] [Datum ν] (w : Surroundings) (a : Arguments) :
    (∃ log ending, ∀ (draw : Draw κ ν) hex, encode draw w { a with hex } = .early log ending) ∨
      ∃ session input, openTopic κ a.topic (w.file a.topic) = .ok session ∧
        ∀ (draw : Draw κ ν) hex, encode draw w { a with hex } =
          (encodeBlobs draw 1 session.serializer (linesOf input)).summed.sent hex session.log
            a.output := by
  simp only [encode, encodeInput_eq_put]
  cases openTopic κ a.topic (w.file a.topic) with
  | error ending => exact .inl ⟨[], ending, fun _ _ => rfl⟩
  | ok session =>
    simp only
    cases openInput w a.input with
    | error f => exact .inl ⟨session.log, .failed f, fun _ _ => rfl⟩
    | ok input =>
      cases a.output with
      | none => exact .inr ⟨session, input, rfl, fun _ _ => rfl⟩
      | some path =>
        simp only
        cases w.create path with
        | error cause =>
          exact .inl ⟨session.log, .failed (.createOutput path cause), fun _ _ => rfl⟩
        | ok _ => exact .inr ⟨session, input, rfl, fun _ _ => rfl⟩

/-- The topic of the arguments. -/
def Opens (w : Surroundings) (a : Arguments) (t : Topic) : Prop :=
  ∃ config, parseFile TopicConfig.parse (w.file a.topic) = .ok config ∧
    Topic.ofConfig config = .ok t

/-- The same report, but for what that of a refused record names. -/
inductive SameReport : Option String → Option String → Prop
  | same (report : Option String) : SameReport report report
  | refused (line : Nat) (e e' : EncodingFailure) :
    SameReport (some (Failure.serialize line (.encoding e)).report)
      (some (Failure.serialize line (.encoding e')).report)

theorem SameEnding.reports {ending ending' : Ending} (h : SameEnding ending ending') :
    ending'.code = ending.code ∧ SameReport ending.report ending'.report := by
  cases h with
  | same => exact ⟨rfl, .same _⟩
  | refused line e e' => exact ⟨rfl, .refused line e e'⟩

/-- What two runs in different orders have in common unless one of them ends in a fault: they end
alike but for what the report of a refused record names, and write blobs that are the same record by
record but for the order of maps. -/
def ParallelUpToOrder (w : Surroundings) (a : Arguments) (binary hex : Outcome) : Prop :=
  ∃ place blobs blobs', Outcome.Parallel place blobs blobs' binary hex ∧
    SameReport binary.error hex.error ∧
    List.Forall₂ (fun x y => ∃ t, Opens w a t ∧ SameBlob t x y) blobs blobs'

theorem ParallelUpToOrder.early (w : Surroundings) (a : Arguments) (log : List LogLine)
    (ending : Ending) : ParallelUpToOrder w a (.early log ending) (.early log ending) :=
  ⟨none, [], [], .early log ending, .same _, .nil⟩

theorem openTopic_lockstep {w : Surroundings} {a : Arguments} {session : Session (Arranged Json)}
    (h : openTopic (Arranged Json) a.topic (w.file a.topic) = .ok session) :
    ∃ t c, Opens w a t ∧ Lockstep t c session.serializer session.serializer := by
  unfold openTopic at h
  cases hconfig : parseFile TopicConfig.parse (w.file a.topic) with
  | error e => rw [hconfig] at h; cases h
  | ok config =>
    rw [hconfig] at h
    cases htopic : Topic.ofConfig config with
    | error stop => simp only [pure_bind, htopic] at h; cases h
    | ok t =>
      cases hcreate : Serializer.create (Arranged Json) t config.serializer with
      | error refusal => simp only [pure_bind, htopic, hcreate] at h; cases h
      | ok s =>
        simp only [pure_bind, htopic, hcreate] at h
        cases h
        exact ⟨t, config.serializer, ⟨config, hconfig, htopic⟩, .create hcreate⟩

theorem encode_upToOrder (orders orders' : Nat → Record Orders Orders) (w : Surroundings)
    (a : Arguments) :
    let binary := encode (.inOrders orders) w { a with hex := false }
    let hex := encode (.inOrders orders') w { a with hex := true }
    binary.code = 101 ∨ hex.code = 101 ∨ ParallelUpToOrder w a binary hex := by
  obtain ⟨log, ending, hrun⟩ | ⟨session, input, hopen, hrun⟩ :=
    encode_cases (Arranged Json) (Arranged Json) w a
  · simp only [hrun]
    exact .inr (.inr (.early w a log ending))
  · obtain ⟨t, c, ht, hlockstep⟩ := openTopic_lockstep hopen
    have hblobs := (encodeBlobs_inStep orders orders' hlockstep 1 (linesOf input)).summed
    simp only [hrun]
    cases hblobs with
    | ended hending hlog _ hrecords =>
      have hparallel := Encoding.parallel hending.reports.1 hlog session.log a.output
      refine .inr (.inr ⟨a.output, _, _, hparallel, ?_, hrecords.imp fun _ _ h => ⟨t, ht, h⟩⟩)
      simp only [Encoding.error_sent]
      exact hending.reports.2
    | fault_left f hf => exact .inl (by rw [Encoding.code_sent, hf]; rfl)
    | fault_right f hf => exact .inr (.inl (by rw [Encoding.code_sent, hf]; rfl))

/-! ## Topics without maps -/

/-- Without the orders of the maps in the key that the serializer keeps. -/
def Encoding.bare (e : Encoding (Arranged κ)) : Encoding κ :=
  ⟨e.serializer.bare, e.blobs, e.log, e.ending⟩

end CommandLine
end RecordTape
