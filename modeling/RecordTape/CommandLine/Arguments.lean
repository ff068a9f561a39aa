/-!
# Command line arguments

What may stand on the command line: the topic file, which must be given, an input file, an output
file, the switch for hexadecimal output, and a call for help. Each may be given once. The arguments
are taken from left to right, and the first that is wrong, or that asks for help, decides.
-/

namespace RecordTape.CommandLine

/-- What to encode and how. -/
structure Arguments where
  topic : String
  input : Option String
  output : Option String
  hex : Bool
deriving DecidableEq, Repr

inductive Invocation where
  | encode (arguments : Arguments)
  | help
  | badUsage
deriving DecidableEq, Repr

inductive FileOption where
  | topic
  | input
  | output
deriving DecidableEq, Repr

/-- The arguments given so far. -/
structure Given where
  topic : Option String
  input : Option String
  output : Option String
  hex : Bool

namespace Given

def none : Given := ⟨.none, .none, .none, false⟩

def file? (g : Given) : FileOption → Option String
  | .topic => g.topic
  | .input => g.input
  | .output => g.output

/-- Gives an option its file name; neither a second one nor an empty one is accepted. -/
def put (g : Given) (o : FileOption) (name : String) : Option Given :=
  if (g.file? o).isSome || name.isEmpty then Option.none
  else some (match o with
    | .topic => { g with topic := some name }
    | .input => { g with input := some name }
    | .output => { g with output := some name })

def invocation (g : Given) : Invocation :=
  match g.topic with
  | some topic => .encode ⟨topic, g.input, g.output, g.hex⟩
  | Option.none => .badUsage

end Given

def longOption? : List Char → Option FileOption
  | ['t', 'o', 'p', 'i', 'c'] => some .topic
  | ['i', 'n', 'p', 'u', 't'] => some .input
  | ['o', 'u', 't', 'p', 'u', 't'] => some .output
  | _ => none

def shortOption? : Char → Option FileOption
  | 't' => some .topic
  | 'i' => some .input
  | 'o' => some .output
  | _ => none

inductive Argument where
  | help
  | hex
  /-- An option whose file name is the next argument. -/
  | file (o : FileOption)
  /-- An option with its file name. -/
  | fileNamed (o : FileOption) (name : String)
  /-- The end of the options. -/
  | endOfOptions
  /-- Anything else; nothing else is accepted. -/
  | other
deriving DecidableEq, Repr

namespace Argument

/-- The form of an argument. A file name may follow a letter directly, or an equals sign. -/
def ofText (s : String) : Argument :=
  match s.toList with
  | ['-', '-'] => .endOfOptions
  | '-' :: '-' :: cs =>
    let name := cs.takeWhile (· != '=')
    match longOption? name, cs.dropWhile (· != '=') with
    | some o, [] => .file o
    | some o, _ :: value => .fileNamed o (String.ofList value)
    | none, _ =>
      if cs = ['h', 'e', 'l', 'p'] then .help
      else if cs = ['h', 'e', 'x'] then .hex
      else .other
  | '-' :: c :: cs =>
    match shortOption? c, cs with
    | some o, [] => .file o
    | some o, '=' :: value => .fileNamed o (String.ofList value)
    | some o, value => .fileNamed o (String.ofList value)
    | none, _ => if c = 'h' then .help else .other
  | _ => .other

/-- A text that may be a file name of its own: it starts with no hyphen, or is just one. -/
def isFileName (s : String) : Bool :=
  s == "-" || s.toList.head? != some '-'

end Argument

/-- Takes arguments from left to right. -/
def parseFrom (g : Given) : List String → Invocation
  | [] => g.invocation
  | s :: rest =>
    match Argument.ofText s with
    | .help => .help
    | .hex => if g.hex then .badUsage else parseFrom { g with hex := true } rest
    | .fileNamed o name =>
      match g.put o name with
      | some g => parseFrom g rest
      | none => .badUsage
    | .file o =>
      match rest with
      | [] => .badUsage
      | name :: rest =>
        if Argument.isFileName name then
          match g.put o name with
          | some g => parseFrom g rest
          | none => .badUsage
        else .badUsage
    | .endOfOptions => if rest.isEmpty then g.invocation else .badUsage
    | .other => .badUsage

/-- What a command line asks for. -/
def parse (arguments : List String) : Invocation := parseFrom .none arguments

def usageText : String := "Usage: tape-encode [OPTIONS] --topic <TOPIC>"

def helpText : String :=
  "Serialize JSON key/value records into Avro tape blobs\n\n" ++ usageText ++ "\n\n" ++
  "Options:\n" ++
  "  -t, --topic <TOPIC>    Topic definition (TOML) with key and value schemas\n" ++
  "  -i, --input <INPUT>    JSON lines input, one \x7b\"key\": ..., \"value\": ...\x7d per line" ++
  "; stdin if omitted\n" ++
  "  -o, --output <OUTPUT>  Output file; stdout if omitted\n" ++
  "      --hex              Print one hex line per record instead of length-prefixed binary\n" ++
  "  -h, --help             Print help\n"

end RecordTape.CommandLine
