import RecordTape.Datum.Basic
import RecordTape.Schema.SchemaError
import RecordTape.Schema.Binding
import RecordTape.Value.Encode
import RecordTape.Value.Validate
/-!
# Errors of the tape

The four classes of errors that writing records reports, each with its causes, and the message of
each: a heading for the class and the text of the cause.
-/

namespace RecordTape

/-- The classes of input and output errors. -/
inductive IoKind where
  | writeZero
  | brokenPipe
  | other
  | permissionDenied
  | notFound
  | invalidData
deriving DecidableEq, Repr

structure IoError where
  kind : IoKind
  text : String
deriving DecidableEq, Repr

namespace IoError

/-- A sink accepted nothing of what was left to write. -/
def wroteNothing : IoError := ⟨.writeZero, "failed to write whole buffer"⟩

/-- A file does not exist. -/
def noSuchFile : IoError := ⟨.notFound, "No such file or directory (os error 2)"⟩

/-- Bytes that should be text are not UTF-8. -/
def notText : IoError := ⟨.invalidData, "stream did not contain valid UTF-8"⟩

end IoError

inductive TopicPart where
  | key
  | value
deriving DecidableEq, Repr

namespace TopicPart

def label : TopicPart → String
  | key => "key"
  | value => "value"

end TopicPart

/-- Why a schema cannot be written under. -/
inductive SchemaFailure where
  /-- The text of a topic's schema is no schema. -/
  | invalid (part : TopicPart) (topic : String) (cause : SchemaError)
  | names (cause : BindingError)
  /-- The whole schema is a reference. -/
  | bareReference (name : Name)
  /-- A reason in free words. -/
  | other (text : String)

namespace SchemaFailure

def message : SchemaFailure → String
  | invalid part topic cause =>
    "invalid " ++ part.label ++ " schema for topic " ++ topic ++ ": " ++ cause.message
  | names cause => cause.message
  | bareReference name => "cannot bind a writer to unresolved reference " ++ name.full
  | other text => text

end SchemaFailure

/-- Why a datum cannot be written under a schema. -/
inductive EncodingFailure where
  | datum (cause : DatumError)
  | names (cause : BindingError)
  | mismatch (cause : Mismatch)
  /-- A long was cut down to an int and changed. -/
  | narrowed (n : Int64)
  | issues (found : List Issue)
  | encode (cause : EncodeError)
  /-- The scratch of the writer is not just its header. -/
  | scratch
  /-- A reason in free words. -/
  | other (text : String)

namespace EncodingFailure

def message : EncodingFailure → String
  | datum cause => cause.message
  | names cause => cause.message
  | mismatch cause => cause.message
  | narrowed n => "long " ++ toString n.toInt ++ " does not fit an int field"
  | issues found =>
    "Value does not match schema: Reason: " ++ "\n".intercalate (found.map Issue.message)
  | encode cause => cause.message
  | scratch => "Illegal single-object writer state"
  | other text => text

end EncodingFailure

inductive ConfigFailure where
  | zeroBuffer
  /-- The text is no configuration. -/
  | malformed
  /-- A reason in free words. -/
  | other (text : String)

namespace ConfigFailure

def message : ConfigFailure → String
  | zeroBuffer => "encoder_buffer_size must be greater than zero"
  | malformed => "malformed configuration"
  | other text => text

end ConfigFailure

inductive TapeError where
  /-- A schema could not be read or bound; no serializer comes of it. -/
  | schemaBinding (cause : SchemaFailure)
  /-- A key or value does not fit its schema. -/
  | encoding (cause : EncodingFailure)
  | io (cause : IoError)
  | config (cause : ConfigFailure)

namespace TapeError

def message : TapeError → String
  | schemaBinding cause => "Schema binding error: " ++ cause.message
  | encoding cause => "Encoding error: " ++ cause.message
  | io cause => "I/O error: " ++ cause.text
  | config cause => "Configuration error: " ++ cause.message

/-- The error comes from a sink or file. -/
def isIo : TapeError → Bool
  | io _ => true
  | _ => false

def isEncoding : TapeError → Bool
  | encoding _ => true
  | _ => false

end TapeError
end RecordTape
