import RecordTape.Error
/-!
# Failures of a run

What can end a run of the tool, and how it is reported: a head that says what was being done, and
the causes below it, the outermost first.
-/

namespace RecordTape.CommandLine

/-- Why a run ended early. -/
inductive Failure where
  | loadTopic (path : String) (cause : TapeError)
  | parseSchemas (cause : TapeError)
  | bindSchemas (cause : TapeError)
  | openInput (path : String) (cause : IoError)
  | createOutput (path : String) (cause : IoError)
  | readInput (cause : IoError)
  /-- A line is no record. -/
  | invalidRecord (line : Nat)
  | serialize (line : Nat) (cause : TapeError)

/-- The texts of an error: its message, and that of the error below it. A text that is no
configuration has no words of its own. -/
def causesOf : TapeError → List String
  | .config .malformed => []
  | .io e => [(TapeError.io e).message, e.text]
  | e => [e.message]

namespace Failure

/-- What was being done. -/
def head : Failure → String
  | loadTopic path _ => "Failed to load topic from " ++ path
  | parseSchemas _ => "Failed to parse topic schemas"
  | bindSchemas _ => "Failed to bind topic schemas"
  | openInput path _ => "Failed to open " ++ path
  | createOutput path _ => "Failed to create " ++ path
  | readInput _ => "Failed to read input"
  | invalidRecord line => "Invalid record on line " ++ toString line
  | serialize line _ => "Failed to serialize record on line " ++ toString line

def causes : Failure → List String
  | loadTopic _ cause | parseSchemas cause | bindSchemas cause | serialize _ cause =>
    causesOf cause
  | openInput _ cause | createOutput _ cause | readInput cause => [cause.text]
  | invalidRecord _ => []

/-- A text of several lines with each line after the first indented. -/
def indented (start continuation s : String) : String :=
  start ++ String.join (s.toList.map fun c =>
    if c = '\n' then "\n" ++ continuation else String.singleton c)

/-- The causes, indented, and numbered if there are several. -/
def causeLines : List String → List String
  | [] => []
  | [cause] => [indented "    " "    " cause]
  | several => several.zipIdx.map fun (cause, i) =>
    indented ("    " ++ toString i ++ ": ") "       " cause

def report (f : Failure) : String :=
  match f.causes with
  | [] => f.head
  | causes => f.head ++ "\n\nCaused by:\n" ++ "\n".intercalate (causeLines causes)

end Failure
end RecordTape.CommandLine
