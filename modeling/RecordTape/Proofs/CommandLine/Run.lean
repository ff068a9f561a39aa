import RecordTape.Proofs.CommandLine.Lines
import RecordTape.Proofs.Serializer.Blob
import RecordTape.Proofs.Toml.Range
/-!
# A whole run

What a run of the tool puts into its output (`run_transcript`): one whole blob for each record
before the first line that fails, in the order of the lines, and nothing of that line. `Fails` says
which lines fail, and `FailsWith` how, under the number that a line has among all lines. One
serializer goes through all lines, so that the account of a run is by induction on the lines from a
reachable state (`encodeLines_account`), with one step for each thing a line can be taken for.

Any record that is spelled as one counts, also an array of key and value (`run_array_line`).
-/

namespace RecordTape

namespace CommandLine

open Serializer (Reachable Stops Written wordTopic)

variable {t : Topic} {c : SerializerConfig} {hex : Bool}

/-! ## Lines that fail -/

/-- A line fails if it is no text, if it is not blank and no record, or if its key or value cannot
be encoded. -/
inductive Fails (t : Topic) (line : Bytes) : Prop
  | notText : Reads line .notText → Fails t line
  | invalid : Reads line .invalid → Fails t line
  | key {r : Record Json Json} {stop : Stop TapeError} : Reads line (.record r) →
    Writer.encodeAlone t.keySchema r.key = .error stop → Fails t line
  | value {r : Record Json Json} {stop : Stop TapeError} : Reads line (.record r) →
    Writer.encodeAlone t.valueSchema r.value = .error stop → Fails t line

/-- How a line with a number ends a run. -/
inductive FailsWith (t : Topic) (number : Nat) (line : Bytes) : Ending → Prop
  | notText : Reads line .notText → FailsWith t number line (.failed (.readInput .notText))
  | invalid : Reads line .invalid → FailsWith t number line (.failed (.invalidRecord number))
  | record {r : Record Json Json} {stop : Stop TapeError} : Reads line (.record r) →
    Stops t r stop → FailsWith t number line (.ofStop (.serialize number) stop)

/-- The blobs of lines of which none fails: each record has its own, a blank line has none. -/
inductive Blobs (t : Topic) (c : SerializerConfig) : List Bytes → List Bytes → Prop
  | nil : Blobs t c [] []
  | blank {line : Bytes} {lines blobs : List Bytes} :
    Reads line .blank → Blobs t c lines blobs → Blobs t c (line :: lines) blobs
  | record {line blob : Bytes} {r : Record Json Json} {lines blobs : List Bytes} :
    Reads line (.record r) → Written t c r blob → Blobs t c lines blobs →
    Blobs t c (line :: lines) (blob :: blobs)

theorem FailsWith.fails {number : Nat} {line : Bytes} {ending : Ending}
    (h : FailsWith t number line ending) : Fails t line := by
  cases h with
  | notText hline => exact .notText hline
  | invalid hline => exact .invalid hline
  | record hline hstops =>
    cases hstops with
    | key hkey => exact .key hline hkey
    | value _ hvalue => exact .value hline hvalue

theorem FailsWith.code_ne_zero {number : Nat} {line : Bytes} {ending : Ending}
    (h : FailsWith t number line ending) : ending.code ≠ 0 := by
  cases h with
  | notText _ | invalid _ => exact Nat.one_ne_zero
  | @record _ stop _ _ => cases stop <;> simp [Ending.ofStop, Ending.code]

/-- A line with a number ends a run in one way. -/
theorem FailsWith.unique {number : Nat} {line : Bytes} {ending ending' : Ending}
    (h : FailsWith t number line ending) (h' : FailsWith t number line ending') :
    ending = ending' := by
  rcases h with hline | hline | ⟨hline, hstops⟩ <;>
    rcases h' with hline' | hline' | ⟨hline', hstops'⟩ <;> cases hline.unique hline'
  · rfl
  · rfl
  · rw [hstops.unique hstops']

theorem not_fails_of_blank {line : Bytes} (h : Reads line .blank) : ¬ Fails t line := by
  rintro (hline | hline | ⟨hline, -⟩ | ⟨hline, -⟩) <;> cases h.unique hline

theorem not_fails_of_written {line blob : Bytes} {r : Record Json Json}
    (h : Reads line (.record r)) (hblob : Written t c r blob) : ¬ Fails t line := by
  obtain ⟨hkey, hvalue, -, -⟩ := hblob
  rintro (hline | hline | ⟨hline, hstop⟩ | ⟨hline, hstop⟩) <;> cases h.unique hline
  · rw [hkey] at hstop; cases hstop
  · rw [hvalue] at hstop; cases hstop

theorem Blobs.not_fails {lines blobs : List Bytes} (h : Blobs t c lines blobs) :
    ∀ line ∈ lines, ¬ Fails t line := by
  induction h with
  | nil => nofun
  | blank hline _ ih => exact List.forall_mem_cons.mpr ⟨not_fails_of_blank hline, ih⟩
  | record hline hblob _ ih =>
    exact List.forall_mem_cons.mpr ⟨not_fails_of_written hline hblob, ih⟩

/-! ## One line after another -/

/-- An account of encoding lines from a number on: the lines before the first that fails, that one
and what is behind it, and the blobs of those before. -/
structure Account (t : Topic) (c : SerializerConfig) (hex : Bool) (number : Nat)
    (lines : List Bytes) (e : Encoded Json) (good rest blobs : List Bytes) : Prop where
  lines : lines = good ++ rest
  encoded : Blobs t c good blobs
  output : e.output = blobs.flatMap (writeBlob hex)
  done : rest = [] → e.ending = .done
  failed : ∀ bad ∈ rest.head?, FailsWith t (number + good.length) bad e.ending

namespace Account

variable {number : Nat} {line : Bytes} {lines good rest blobs : List Bytes} {e : Encoded Json}

theorem none {s : Serializer Json} : Account t c hex number [] ⟨s, [], [], .done⟩ [] [] [] :=
  ⟨rfl, .nil, rfl, fun _ => rfl, nofun⟩

/-- The first line fails, and nothing comes of it. -/
theorem fails {s : Serializer Json} {log : List LogLine} {ending : Ending}
    (h : FailsWith t number line ending) :
    Account t c hex number (line :: lines) ⟨s, [], log, ending⟩ [] (line :: lines) [] :=
  ⟨rfl, .nil, rfl, nofun, by rintro _ ⟨⟩; exact h⟩

theorem blank (hline : Reads line .blank)
    (h : Account t c hex (number + 1) lines e good rest blobs) :
    Account t c hex number (line :: lines) e (line :: good) rest blobs where
  lines := congrArg (line :: ·) h.lines
  encoded := .blank hline h.encoded
  output := h.output
  done := h.done
  failed bad hbad := by
    rw [List.length_cons, Nat.add_comm good.length, ← Nat.add_assoc]
    exact h.failed bad hbad

theorem record {r : Record Json Json} {blob : Bytes} {log : List LogLine}
    (hline : Reads line (.record r)) (hblob : Written t c r blob)
    (h : Account t c hex (number + 1) lines e good rest blobs) :
    Account t c hex number (line :: lines) (e.after (writeBlob hex blob) log) (line :: good) rest
      (blob :: blobs) where
  lines := congrArg (line :: ·) h.lines
  encoded := .record hline hblob h.encoded
  output := by rw [Encoded.after, h.output, List.flatMap_cons]
  done := h.done
  failed bad hbad := by
    rw [List.length_cons, Nat.add_comm good.length, ← Nat.add_assoc]
    exact h.failed bad hbad

/-- The code tells whether a line fails. -/
theorem code_eq_zero (h : Account t c hex number lines e good rest blobs) :
    e.ending.code = 0 ↔ ∀ line ∈ lines, ¬ Fails t line := by
  rw [h.lines]
  cases rest with
  | nil =>
    rw [h.done rfl, List.append_nil]
    exact iff_of_true rfl h.encoded.not_fails
  | cons bad behind =>
    have hbad := h.failed bad rfl
    refine iff_of_false hbad.code_ne_zero fun hnone => ?_
    exact hnone bad (List.mem_append_right _ List.mem_cons_self) hbad.fails

end Account

/-- Encoding lines from any reachable state has an account. -/
theorem encodeLines_account (hex : Bool) (room : c.Roomy) {s : Serializer Json}
    (h : Reachable Json t c s) (number : Nat) (lines : List Bytes) :
    ∃ good rest blobs,
      Account t c hex number lines (encodeLines .plain hex number s lines) good rest blobs := by
  induction lines generalizing s number with
  | nil => exact ⟨_, _, _, .none⟩
  | cons line lines ih =>
    have hline : Reads line (LineContent.ofBytes line) := reads_iff.mpr rfl
    unfold encodeLines
    generalize LineContent.ofBytes line = content at hline
    cases content with
    | notText => exact ⟨_, _, _, .fails (.notText hline)⟩
    | blank =>
      obtain ⟨good, rest, blobs, hrest⟩ := ih h (number + 1)
      exact ⟨_, _, _, hrest.blank hline⟩
    | invalid => exact ⟨_, _, _, .fails (.invalid hline)⟩
    | record r =>
      obtain ⟨hok, hblob⟩ | ⟨stop, hstop, hwhy⟩ := Serializer.serialize_memory h room r
      · obtain ⟨good, rest, blobs, hrest⟩ := ih (h.serialize r Sink.memory) (number + 1)
        simp only [Draw.plain_apply, hok]
        exact ⟨_, _, _, hrest.record hline hblob⟩
      · simp only [Draw.plain_apply, hstop]
        exact ⟨_, _, _, .fails (.record hline hwhy)⟩

/-- The summary at the end changes neither output nor ending. -/
theorem encodeInput_eq (hex : Bool) (s : Serializer Json) (input : Bytes) :
    (encodeInput .plain hex s input).output =
        (encodeLines .plain hex 1 s (linesOf input)).output ∧
      (encodeInput .plain hex s input).ending =
        (encodeLines .plain hex 1 s (linesOf input)).ending := by
  unfold encodeInput
  simp only
  split <;> exact ⟨rfl, rfl⟩

/-! ## The whole run -/

def Ending.report : Ending → Option String
  | .failed f => some f.report
  | _ => none

/-- The output of a run, and where it is: in the output file if there is one, or else in the
standard output. -/
def Outcome.Wrote (o : Outcome) (file : Option String) (output : Bytes) : Prop :=
  match file with
  | none => o.standardOutput = output ∧ o.outputFile = none
  | some _ => o.standardOutput = [] ∧ o.outputFile = some output

/-- A topic file that is accepted and whose schemas bind gives a serializer. -/
theorem openTopic_eq_ok (path : String) {content : Except IoError Bytes} {config : TopicConfig}
    {topic : Topic} {k v : Writer} (hconfig : parseFile TopicConfig.parse content = .ok config)
    (htopic : Topic.ofConfig config = .ok topic) (hk : Writer.forSchema topic.keySchema = .ok k)
    (hv : Writer.forSchema topic.valueSchema = .ok v) :
    ∃ session, openTopic Json path content = .ok session ∧
      Reachable Json topic config.serializer session.serializer ∧ config.serializer.Roomy := by
  obtain ⟨text, htext⟩ := exists_of_parseFile hconfig
  obtain ⟨hvalid, hsized⟩ := TopicConfig.parse_sized htext
  obtain ⟨s, hs⟩ : ∃ s, Serializer.create Json topic config.serializer = .ok s :=
    Serializer.exists_create hvalid hsized.buffer hk hv
  obtain ⟨log, hopen⟩ : ∃ log, openTopic Json path content = .ok ⟨s, log⟩ := by
    simp only [openTopic, hconfig, htopic, hs, pure_bind]
    exact ⟨_, rfl⟩
  exact ⟨⟨s, log⟩, hopen, .create hs, hsized.key⟩

/-- Once all is open, a run does what encoding its input does. -/
theorem encode_opened {w : Surroundings} {a : Arguments} {session : Session Json}
    {input : Bytes} (hsession : openTopic Json a.topic (w.file a.topic) = .ok session)
    (hinput : openInput w a.input = .ok input)
    (houtput : ∀ path ∈ a.output, w.create path = .ok ()) :
    let e := encodeLines .plain a.hex 1 session.serializer (linesOf input)
    (encode .plain w a).Wrote a.output e.output ∧ (encode .plain w a).code = e.ending.code ∧
      (encode .plain w a).error = e.ending.report := by
  obtain ⟨hwritten, hending⟩ := encodeInput_eq a.hex session.serializer input
  simp only [encode, hsession, hinput]
  rw [← hwritten, ← hending]
  cases hfile : a.output with
  | none => exact ⟨⟨rfl, rfl⟩, rfl, rfl⟩
  | some path =>
    simp only [houtput path hfile]
    exact ⟨⟨rfl, rfl⟩, trivial, rfl⟩

/-- What a run comes to: the lines of its input, good ones up to the first that fails, and an output
that is the blobs of the good ones, one for each record, complete and in order. The failure of a
line is reported under its number among all lines. -/
structure Transcript (t : Topic) (c : SerializerConfig) (a : Arguments) (input : Bytes)
    (o : Outcome) (good rest blobs : List Bytes) : Prop where
  lines : Lines input (good ++ rest)
  encoded : Blobs t c good blobs
  none_fails : ∀ line ∈ good, ¬ Fails t line
  first_fails : ∀ bad ∈ rest.head?, Fails t bad
  output : o.Wrote a.output (blobs.flatMap (writeBlob a.hex))
  success : o.code = 0 ↔ ∀ line ∈ good ++ rest, ¬ Fails t line
  silent : o.code = 0 → o.error = none
  reported : ∀ bad ∈ rest.head?, ∀ failure,
    FailsWith t (good.length + 1) bad (.failed failure) →
    o.code = 1 ∧ o.error = some failure.report

def wordsFile : Bytes :=
  Bytes.ofText ("\n".intercalate
    ["name = \"words\"", "key_schema = \"\\\"string\\\"\"", "value_schema = \"\\\"long\\\"\""])

def wordsConfig : TopicConfig := ⟨"words", "\"string\"", "\"long\"", .default⟩

def wordsSurroundings (input : String) : Surroundings where
  file path := if path = "words.toml" then .ok wordsFile else .error .noSuchFile
  create _ := .ok ()
  standardInput := Bytes.ofText input

/-- Every run has a transcript whose topic file is accepted, whose schemas bind, and whose input and
output can be opened. -/
theorem run_transcript {w : Surroundings} {arguments : List String} {a : Arguments}
    {config : TopicConfig} {topic : Topic} {k v : Writer} {input : Bytes}
    (hparse : parse arguments = .encode a)
    (hconfig : parseFile TopicConfig.parse (w.file a.topic) = .ok config)
    (htopic : Topic.ofConfig config = .ok topic) (hk : Writer.forSchema topic.keySchema = .ok k)
    (hv : Writer.forSchema topic.valueSchema = .ok v) (hinput : openInput w a.input = .ok input)
    (houtput : ∀ path ∈ a.output, w.create path = .ok ()) :
    ∃ good rest blobs,
      Transcript topic config.serializer a input (run w arguments) good rest blobs := by
  obtain ⟨session, hsession, hreachable, hroomy⟩ := openTopic_eq_ok a.topic hconfig htopic hk hv
  obtain ⟨good, rest, blobs, haccount⟩ :=
    encodeLines_account a.hex hroomy hreachable 1 (linesOf input)
  obtain ⟨hwrote, hcode, herror⟩ := encode_opened hsession hinput houtput
  have hrun : run w arguments = encode .plain w a := by simp only [run, runDrawn, hparse]
  have hfirst := haccount.failed
  rw [Nat.add_comm] at hfirst
  rw [hrun]
  exact ⟨good, rest, blobs, {
    lines := lines_iff.mpr haccount.lines
    encoded := haccount.encoded
    none_fails := haccount.encoded.not_fails
    first_fails := fun bad hbad => (hfirst bad hbad).fails
    output := haccount.output ▸ hwrote
    success := by rw [hcode, ← haccount.lines]; exact haccount.code_eq_zero
    silent := fun hzero => by
      rw [hcode] at hzero
      cases rest with
      | nil => rw [herror, haccount.done rfl]; rfl
      | cons bad behind => exact absurd hzero (hfirst bad rfl).code_ne_zero
    reported := fun bad hbad failure hfailure => by
      rw [hcode, herror, (hfirst bad hbad).unique hfailure]
      exact ⟨rfl, rfl⟩ }⟩

/-- A record, a blank line that ends like those of some systems, the key again, a line without a
value, and another record that is not reached. -/
theorem run_transcript_five_lines :
    let input := "\n".intercalate ["\x7b\"key\": \"a\", \"value\": 1\x7d", " \r",
      "\x7b\"value\": 2, \"key\": \"a\"\x7d", "\x7b\"key\": \"b\"\x7d", "[\"c\", 3]"]
    let arguments := ["--topic", "words.toml", "--hex"]
    let a : Arguments := ⟨"words.toml", none, none, true⟩
    let o := run (wordsSurroundings input) arguments
    (parse arguments = .encode a ∧
      parseFile TopicConfig.parse (.ok wordsFile) = .ok wordsConfig ∧
      Topic.ofConfig wordsConfig = .ok wordTopic) ∧
    (∃ good rest blobs,
      Transcript wordTopic .default a (Bytes.ofText input) o good rest blobs) ∧
      o.code = 1 ∧ o.error = some "Invalid record on line 4" ∧
      o.standardOutput = Bytes.ofText "0000000000000000026102\n0000000000000000026104\n" := by
  intro input arguments a o
  have hparse : parse arguments = .encode a := by decide +kernel
  have hconfig : parseFile TopicConfig.parse (.ok wordsFile) = .ok wordsConfig := rfl
  have htopic : Topic.ofConfig wordsConfig = .ok wordTopic := rfl
  refine ⟨⟨hparse, hconfig, htopic⟩, ?_, by decide +kernel, by decide +kernel, by decide +kernel⟩
  exact run_transcript (w := wordsSurroundings input) hparse hconfig htopic rfl rfl rfl
    (by simp [a])

/-- A line that is no object and yet holds a record. -/
theorem run_array_line :
    let line := "[\"a\", 1]"
    let o := run (wordsSurroundings line) ["--topic", "words.toml", "--hex"]
    Lines (Bytes.ofText line) [Bytes.ofText line] ∧ Text.isBlank line = false ∧
      (∀ members, Json.Text.parse line ≠ some (.object members)) ∧
      o.code = 0 ∧ o.standardOutput = Bytes.ofText "0000000000000000026102\n" := by
  exact ⟨lines_iff.mpr (by decide +kernel), by decide +kernel, fun _ => nofun, by decide +kernel,
    by decide +kernel⟩

end CommandLine
end RecordTape
