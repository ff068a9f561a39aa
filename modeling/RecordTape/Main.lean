import RecordTape.CommandLine.Run
/-!
# The tool

Reads the files that the command line names, runs, and writes what the run says. The log goes to the
standard error stream; `TAPE_LOG=trace` shows all of it.
-/

open RecordTape

namespace RecordTape.CommandLine

/-- The error of a file system call, as runs report it. -/
def ioErrorOf : IO.Error → IoError
  | .noFileOrDirectory .. => .noSuchFile
  | .permissionDenied _ code details =>
    ⟨.permissionDenied, details ++ " (os error " ++ toString code ++ ")"⟩
  | e => ⟨.other, toString e⟩

/-- Does something with a file and keeps the error if it fails. -/
def attempt {α : Type} (action : IO α) : IO (Except IoError α) := do
  try
    return .ok (← action)
  catch e => return .error (ioErrorOf e)

def readFile (path : String) : IO (Except IoError Bytes) :=
  attempt do return (← IO.FS.readBinFile path).data.toList

def writeFile (path : String) (content : Bytes) : IO (Except IoError Unit) :=
  attempt (IO.FS.writeBinFile path ⟨content.toArray⟩)

partial def readRest (stream : IO.FS.Stream) (sofar : ByteArray) : IO ByteArray := do
  let block ← stream.read 65536
  if block.isEmpty then return sofar else readRest stream (sofar ++ block)

/-- What a run with these arguments can see. The standard input is read if no file stands for it and
the topic can be used. -/
def surroundings (a : Arguments) : IO Surroundings := do
  let topic ← readFile a.topic
  let usable := (openTopic Json a.topic topic).toOption.isSome
  let input ← match a.input with
    | some path => readFile path
    | none =>
      if usable then pure (.ok (← readRest (← IO.getStdin) .empty).data.toList) else pure (.ok [])
  return {
    file := fun path => if path = a.topic then topic else input
    create := fun _ => .ok ()
    standardInput := input.toOption.getD [] }

/-- Runs, and writes the output file if the run creates one. A file that cannot be created ends the
run before its first line. -/
def execute (a : Arguments) : IO Outcome := do
  let w ← surroundings a
  let outcome := encode .plain w a
  match a.output, outcome.outputFile with
  | some path, some content =>
    match ← writeFile path content with
    | .ok () => return outcome
    | .error cause => return encode .plain { w with create := fun _ => .error cause } a
  | _, _ => return outcome

/-- Shows what a run says. -/
def Outcome.display (o : Outcome) (verbose : Bool) : IO Unit := do
  let output ← IO.getStdout
  output.write ⟨o.standardOutput.toArray⟩
  output.flush
  for line in LogLine.visible verbose o.log do
    IO.eprintln line.shown
  if let some report := o.error then
    IO.eprintln ("Error: " ++ report)

end RecordTape.CommandLine

def main (arguments : List String) : IO UInt32 := do
  let verbose := (← IO.getEnv "TAPE_LOG") == some "trace"
  let outcome ← match CommandLine.parse arguments with
    | .encode a => CommandLine.execute a
    | .help => pure CommandLine.Outcome.help
    | .badUsage => do
      IO.eprintln CommandLine.usageText
      pure CommandLine.Outcome.badUsage
  outcome.display verbose
  return outcome.code.toUInt32
