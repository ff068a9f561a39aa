import RecordTape.Blob
import RecordTape.CommandLine.Arguments
import RecordTape.CommandLine.Failure
import RecordTape.Serializer
import RecordTape.Text.Blank
import RecordTape.TopicFile
/-!
# A run of the tool

Encodes a file of records, one to a line, under a topic. A run is given what it reads and answers
with what it writes, so nothing here touches a file. What was encoded before a line that fails is
written all the same.
-/

namespace RecordTape.CommandLine

/-- How much a log line matters. -/
inductive Level where
  | info
  | debug
  | trace
deriving DecidableEq, Repr

namespace Level

def label : Level → String
  | info => "INFO"
  | debug => "DEBUG"
  | trace => "TRACE"

end Level

structure LogLine where
  level : Level
  text : String
deriving DecidableEq, Repr

namespace LogLine

/-- A character of a text as it is shown. The controls that a terminal may obey are spelled out, all
others stand for themselves. -/
def shownChar (c : Char) : String :=
  if c = '\x07' || c = '\x08' || c = '\x0c' || c = '\x1b' || c = '\x7f' then
    "\\x" ++ Hex.encode [UInt8.ofNat c.toNat]
  else if 0x80 ≤ c.toNat && c.toNat ≤ 0x9F then
    "\\u\x7b" ++ Hex.ofNat c.toNat ++ "\x7d"
  else String.singleton c

def shown (l : LogLine) : String :=
  l.level.label ++ " " ++ String.join (l.text.toList.map shownChar)

/-- The lines that are shown: all of them, or those that inform. -/
def visible (verbose : Bool) (log : List LogLine) : List LogLine :=
  log.filter fun l => verbose || l.level = .info

end LogLine

/-- How a run ended. -/
inductive Ending where
  | done
  | failed (f : Failure)
  | fault (f : Fault)

namespace Ending

def ofStop (report : TapeError → Failure) : Stop TapeError → Ending
  | .error e => .failed (report e)
  | .fault f => .fault f

/-- The exit status. That of a fault is the one of a build that unwinds; a build that aborts at once
ends with another one, and without the output that is not written yet. -/
def code : Ending → Nat
  | done => 0
  | failed _ => 1
  | fault _ => 101

def badUsageCode : Nat := 2

end Ending

/-! ## Before the first line -/

/-- A serializer ready for records, and what was logged on the way. -/
structure Session (κ : Type) where
  serializer : Serializer κ
  log : List LogLine

/-- Reads the topic file, reads its schemas and binds them. -/
def openTopic (κ : Type) (path : String) (content : Except IoError Bytes) :
    Except Ending (Session κ) := do
  let config ← match parseFile TopicConfig.parse content with
    | .error e => throw (.failed (.loadTopic path e))
    | .ok c => pure c
  let topic ← match Topic.ofConfig config with
    | .error stop => throw (.ofStop .parseSchemas (stop.map .schemaBinding))
    | .ok t => pure t
  match Serializer.create κ topic config.serializer with
  | .error refusal => throw (.ofStop .bindSchemas refusal.stop)
  | .ok s =>
    return ⟨s,
      [⟨.debug, "Bound tape writers for topic " ++ topic.name ++ " (encoder buffer " ++
          toString config.serializer.encoderBufferSize ++ " bytes, key memoization " ++
          toString config.serializer.memoizeKeys ++ ")"⟩,
        ⟨.info, "Encoding records for topic " ++ topic.name⟩]⟩

/-! ## Lines -/

/-- A line without its end: a carriage return goes with the line feed after it. -/
def trimEnd (line : Bytes) : Bytes :=
  if line.getLast? = some 13 then line.dropLast else line

/-- Cuts bytes into lines. Bytes after the last line feed are a line if there are any. -/
def splitLines (line : Bytes) : Bytes → List Bytes
  | [] => if line.isEmpty then [] else [line.reverse]
  | b :: rest =>
    if b = 10 then trimEnd line.reverse :: splitLines [] rest else splitLines (b :: line) rest

def linesOf (input : Bytes) : List Bytes := splitLines [] input

inductive LineContent where
  | notText
  | blank
  | invalid
  | record (r : Record Json Json)

def LineContent.ofBytes (line : Bytes) : LineContent :=
  match Bytes.toText? line with
  | none => .notText
  | some text =>
    if Text.isBlank text then .blank
    else
      match Record.parse text with
      | none => .invalid
      | some r => .record r

def writeBlob (hex : Bool) (blob : Bytes) : Bytes :=
  if hex then Blob.hexLine blob else Blob.frame blob

/-- What is logged of the key of a record. -/
def keyLine (topic : String) : KeyEvent → LogLine
  | .hit => ⟨.trace, "Key cache hit on topic " ++ topic⟩
  | .miss length =>
    ⟨.trace, "Key cache miss on topic " ++ topic ++ ", encoded " ++ toString length ++ " key bytes"⟩

/-- The data that records become, each under the number of its line. -/
abbrev Draw (κ ν : Type) : Type := Nat → Record Json Json → Record κ ν

/-- The orders in which the maps of a datum come up. -/
structure Orders where
  given : Arrangement
  resolved : Arrangement

namespace Draw

/-- Records as they are, with their maps in the order of the text. -/
def plain : Draw Json Json := fun _ r => r

@[simp] theorem plain_apply (line : Nat) (r : Record Json Json) : plain line r = r := rfl

/-- Records with their maps in orders that come up line by line. -/
def inOrders (orders : Nat → Record Orders Orders) : Draw (Arranged Json) (Arranged Json) :=
  fun line r =>
    let o := orders line
    ⟨⟨r.key, o.key.given, o.key.resolved⟩, ⟨r.value, o.value.given, o.value.resolved⟩⟩

end Draw

/-- What the lines of an input come to. -/
structure Encoded (κ : Type) where
  serializer : Serializer κ
  output : Bytes
  log : List LogLine
  ending : Ending

namespace Encoded

/-- Something written and logged before. -/
def after {κ : Type} (output : Bytes) (log : List LogLine) (e : Encoded κ) : Encoded κ :=
  { e with output := output ++ e.output, log := log ++ e.log }

end Encoded

section Draws

variable {κ ν : Type} [Datum κ] [Datum ν]

/-- Encodes lines from number `line` on, up to the first that fails. Each record is serialized by
itself and then put into the output. -/
def encodeLines (draw : Draw κ ν) (hex : Bool) :
    (line : Nat) → Serializer κ → List Bytes → Encoded κ
  | _, s, [] => ⟨s, [], [], .done⟩
  | line, s, content :: rest =>
    match LineContent.ofBytes content with
    | .notText => ⟨s, [], [], .failed (.readInput .notText)⟩
    | .blank => encodeLines draw hex (line + 1) s rest
    | .invalid => ⟨s, [], [], .failed (.invalidRecord line)⟩
    | .record r =>
      let call := s.serialize (draw line r) Sink.memory
      let keyLog := call.event.toList.map (keyLine s.topic)
      match call.result with
      | .error stop => ⟨call.serializer, [], keyLog, .ofStop (.serialize line) stop⟩
      | .ok () =>
        let blob := call.sink.accepted
        let log := keyLog ++
          [⟨.debug, "Line " ++ toString line ++ " -> " ++ toString blob.length ++ " bytes"⟩]
        (encodeLines draw hex (line + 1) call.serializer rest).after (writeBlob hex blob) log

def summary (s : Stats) : LogLine :=
  ⟨.info, "Encoded " ++ toString s.records ++ " records (" ++ toString s.bytesWritten ++
    " bytes, " ++ toString s.keyCacheHits ++ " key cache hits, " ++ toString s.keyEncodings ++
    " key encodings)"⟩

def encodeInput (draw : Draw κ ν) (hex : Bool) (s : Serializer κ) (input : Bytes) : Encoded κ :=
  let e := encodeLines draw hex 1 s (linesOf input)
  match e.ending with
  | .done => { e with log := e.log ++ [summary e.serializer.stats] }
  | _ => e

end Draws

/-! ## The whole run -/

/-- What a run can see: the content of files, the standard input, and whether files can be created.
-/
structure Surroundings where
  file : String → Except IoError Bytes
  create : String → Except IoError Unit
  standardInput : Bytes

/-- What a run does. -/
structure Outcome where
  code : Nat
  standardOutput : Bytes
  /-- The content of the output file, if it was created. -/
  outputFile : Option Bytes
  log : List LogLine
  /-- The report of a failure. -/
  error : Option String

namespace Outcome

/-- A run that ended before there was an output. -/
def early (log : List LogLine) (e : Ending) : Outcome :=
  ⟨e.code, [], none, log,
    match e with
    | .failed f => some f.report
    | _ => none⟩

def help : Outcome := ⟨0, Bytes.ofText helpText, none, [], none⟩

def badUsage : Outcome := ⟨Ending.badUsageCode, [], none, [], none⟩

end Outcome

def openInput (w : Surroundings) : Option String → Except Failure Bytes
  | none => .ok w.standardInput
  | some path => (w.file path).mapError (.openInput path)

section Draws

variable {κ ν : Type} [Datum κ] [Datum ν]

/-- Runs with arguments. The topic comes first, then the input is opened, then the output is
created. -/
def encode (draw : Draw κ ν) (w : Surroundings) (a : Arguments) : Outcome :=
  match openTopic κ a.topic (w.file a.topic) with
  | .error ending => .early [] ending
  | .ok session =>
    match openInput w a.input with
    | .error f => .early session.log (.failed f)
    | .ok input =>
      let e := encodeInput draw a.hex session.serializer input
      let error := match e.ending with
        | .failed f => some f.report
        | _ => none
      match a.output with
      | none => ⟨e.ending.code, e.output, none, session.log ++ e.log, error⟩
      | some path =>
        match w.create path with
        | .ok () => ⟨e.ending.code, [], some e.output, session.log ++ e.log, error⟩
        | .error cause => .early session.log (.failed (.createOutput path cause))

/-- Runs a command line on the data that its records become. -/
def runDrawn (draw : Draw κ ν) (w : Surroundings) (arguments : List String) : Outcome :=
  match parse arguments with
  | .help => .help
  | .badUsage => .badUsage
  | .encode a => encode draw w a

end Draws

def run (w : Surroundings) (arguments : List String) : Outcome := runDrawn .plain w arguments

end RecordTape.CommandLine
