import RecordTape.Config
import RecordTape.Schema.Reader
/-!
# Topics

A topic names a stream of records and fixes the schemas of their keys and values.
-/

namespace RecordTape

structure Topic where
  name : String
  keySchema : Schema
  valueSchema : Schema

namespace Topic

def parseSchema (part : TopicPart) (topic text : String) : Outcome SchemaFailure Schema :=
  (Schema.parse text).mapError (.invalid part topic)

/-- A topic from the texts of its schemas; the schema of the keys is read first. -/
def parse (name keySchema valueSchema : String) : Outcome SchemaFailure Topic := do
  let key ← parseSchema .key name keySchema
  let value ← parseSchema .value name valueSchema
  return ⟨name, key, value⟩

def ofConfig (c : TopicConfig) : Outcome SchemaFailure Topic :=
  parse c.name c.keySchema c.valueSchema

/-- The canonical forms of the two schemas. -/
def canonicals (t : Topic) : Except Fault (String × String) := do
  return (← t.keySchema.canonical, ← t.valueSchema.canonical)

def describe (t : Topic) : Except Fault String := do
  let (key, value) ← t.canonicals
  return "AvroTopic \x7b name: " ++ Text.quoted t.name ++ ", key_schema: " ++ Text.quoted key ++
    ", value_schema: " ++ Text.quoted value ++ " \x7d"

end Topic
end RecordTape
