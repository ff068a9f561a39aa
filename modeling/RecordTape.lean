import RecordTape.Text.Blank
import RecordTape.Json.Reading
import RecordTape.Json.Printer
import RecordTape.Schema.Canonical
import RecordTape.Value.Validate
import RecordTape.Value.Encode
import RecordTape.Value.Decode
import RecordTape.Schema.Reader
import RecordTape.Datum.Typed
import RecordTape.Error
import RecordTape.Serializer
import RecordTape.CommandLine.Run
import RecordTape.Main
import RecordTape.Capacity
import RecordTape.Proofs.Sink.Delivery
import RecordTape.Proofs.Writer.Pieces
import RecordTape.Proofs.Writer.Direct
import RecordTape.Proofs.Serializer.Invariant
import RecordTape.Proofs.Serializer.Independence
import RecordTape.Proofs.Serializer.Ending
import RecordTape.Proofs.Schema.Regular
import RecordTape.Proofs.Value.Resolved
import RecordTape.Proofs.Value.Valid
import RecordTape.Proofs.Value.Levels
import RecordTape.Proofs.Value.Primitive
import RecordTape.Proofs.Value.Parts
import RecordTape.Proofs.Value.RoundTrip
import RecordTape.Proofs.Writer.ReadBack
import RecordTape.Proofs.Tape
import RecordTape.Proofs.Narrowing
import RecordTape.Proofs.Serializer.Course
import RecordTape.Proofs.Serializer.Keeping
import RecordTape.Proofs.Serializer.Counters
import RecordTape.Proofs.Writer.Standalone
import RecordTape.Proofs.Value.Agree
import RecordTape.Proofs.Value.SignsApart
import RecordTape.Proofs.Writer.EqualData
import RecordTape.Proofs.Serializer.Replay
import RecordTape.Proofs.Sink.Buffering
import RecordTape.Proofs.Value.Equality
import RecordTape.Proofs.Serializer.Economy
import RecordTape.Proofs.Value.Transparent
import RecordTape.Proofs.Writer.Options
import RecordTape.Proofs.Serializer.Blob
import RecordTape.Proofs.Toml.Range
import RecordTape.Proofs.CommandLine.Lines
import RecordTape.Proofs.CommandLine.Run
import RecordTape.Proofs.Json.Proper
import RecordTape.Proofs.Value.Meeting
import RecordTape.Proofs.Value.Standing
import RecordTape.Proofs.Writer.RangeCheck
import RecordTape.Proofs.Schema.Parts
import RecordTape.Proofs.Value.Descent
import RecordTape.Proofs.Writer.Defaults
import RecordTape.Proofs.Value.Twins
import RecordTape.Proofs.Writer.SameShape
import RecordTape.Proofs.Schema.Rebinding
import RecordTape.Proofs.Value.Decider
import RecordTape.Proofs.Writer.UnionIntegers
import RecordTape.Proofs.Blob.Framing
import RecordTape.Proofs.Writer.Overlooked
import RecordTape.Proofs.Writer.NamesKnown
import RecordTape.Proofs.Writer.Faults
import RecordTape.Proofs.Sink.CountedTwice
import RecordTape.Proofs.Value.Occurrences
import RecordTape.Proofs.Writer.RepeatedFields
import RecordTape.Proofs.Blob.HexLines
import RecordTape.Proofs.CommandLine.Modes
