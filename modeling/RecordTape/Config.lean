import RecordTape.Encoder
/-!
# Configuration

How a serializer is tuned. None of it changes what is written, only how often sinks are touched, how
much room is set aside and whether the bytes of a repeated key are kept.
-/

namespace RecordTape

structure SerializerConfig where
  /-- The number of waiting bytes at which the encoder is drained. -/
  encoderBufferSize : Nat
  /-- The room that is set aside for the bytes of a key. -/
  initialKeyCapacity : Nat
  /-- The bytes of a key are used again while keys are equal. -/
  memoizeKeys : Bool
deriving DecidableEq, Repr

namespace SerializerConfig

/-- The room set aside for a key if nothing else is said. -/
def defaultKeyCapacity : Nat := 64

/-- The tuning of a serializer for which none is given. -/
def default : SerializerConfig := ⟨Encoder.defaultSize, defaultKeyCapacity, true⟩

/-- A buffer must hold at least one byte. -/
def validate (c : SerializerConfig) : Except ConfigFailure Unit :=
  if c.encoderBufferSize = 0 then .error .zeroBuffer else .ok ()

end SerializerConfig

/-- A topic as it is described in a file: its name, its two schema texts and the tuning. -/
structure TopicConfig where
  name : String
  keySchema : String
  valueSchema : String
  serializer : SerializerConfig
deriving DecidableEq, Repr

end RecordTape
