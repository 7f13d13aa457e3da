import TraceLoom.Config
import TraceLoom.Execution.Arguments
import TraceLoom.Execution.Builder
import TraceLoom.Execution.Error
import TraceLoom.Execution.Interpreter
import TraceLoom.Execution.Machine
import TraceLoom.Execution.Native
import TraceLoom.Execution.Run
import TraceLoom.Fields
import TraceLoom.Host.Adapter
import TraceLoom.Host.Event
import TraceLoom.Host.Network
import TraceLoom.Instrument.Error
import TraceLoom.Instrument.Lower
import TraceLoom.Instrument.Names
import TraceLoom.Instrument.Options
import TraceLoom.Instrument.Primitive
import TraceLoom.Instrument.Source
import TraceLoom.Instrument.Weave
import TraceLoom.Json.Basic
import TraceLoom.Json.Number
import TraceLoom.Json.Printer
import TraceLoom.Json.Reader
import TraceLoom.Numeric.Binary64
import TraceLoom.Numeric.Decimal
import TraceLoom.Numeric.Notation
import TraceLoom.Proofs.Fields
import TraceLoom.Proofs.Trace.Node
import TraceLoom.Proofs.Trace.Order
import TraceLoom.Queue
import TraceLoom.Script.Cursor
import TraceLoom.Script.Encoding
import TraceLoom.Script.Error
import TraceLoom.Script.NormalForm
import TraceLoom.Script.Operator
import TraceLoom.Script.Parser
import TraceLoom.Script.Printer
import TraceLoom.Script.Syntax
import TraceLoom.Script.Token
import TraceLoom.Session
import TraceLoom.Text.Blank
import TraceLoom.Text.Diagnostic
import TraceLoom.Text.Hex
import TraceLoom.Text.Hidden
import TraceLoom.Text.Quoted
import TraceLoom.Text.Units
import TraceLoom.Trace.Basic
import TraceLoom.Trace.Encoding
import TraceLoom.Trace.Equality
import TraceLoom.Trace.Error
import TraceLoom.Trace.Merge
import TraceLoom.Trace.Operation
import TraceLoom.Trace.Path
import TraceLoom.Trace.Recorder
import TraceLoom.Trace.Render
import TraceLoom.Value.Basic
import TraceLoom.Value.Equality
import TraceLoom.Value.Operator
import TraceLoom.Value.Property
import TraceLoom.Value.Store
import TraceLoom.Value.Text
import TraceLoom.Proofs.Trace.Join
import TraceLoom.Proofs.Trace.JoinLaws
import TraceLoom.Proofs.Trace.Associativity
import TraceLoom.Proofs.Script.NameList
import TraceLoom.Proofs.Trace.LeastUpperBound
import TraceLoom.Proofs.Trace.Observed
import TraceLoom.Proofs.Trace.Filling
import TraceLoom.Proofs.Trace.Path
import TraceLoom.Proofs.Trace.Tidy
import TraceLoom.Proofs.Trace.Covers
import TraceLoom.Proofs.Recorder.Sound
import TraceLoom.Proofs.Recorder.Edit
import TraceLoom.Proofs.Recorder.Plan
import TraceLoom.Proofs.Recorder.Invariant
import TraceLoom.Proofs.Recorder.Run
import TraceLoom.Proofs.Recorder.Cover
import TraceLoom.Proofs.Recorder.Mirror
import TraceLoom.Proofs.Recorder.Replay
import TraceLoom.Proofs.Recorder.RunOrder
import TraceLoom.Proofs.Instrument.Names
import TraceLoom.Proofs.Instrument.Resolution
import TraceLoom.Proofs.Instrument.FreeNames
import TraceLoom.Proofs.Instrument.Lowering
import TraceLoom.Proofs.Instrument.Weaving
import TraceLoom.Proofs.Instrument.Closures
import TraceLoom.Proofs.Execution.Callbacks
import TraceLoom.Proofs.Execution.Natives
import TraceLoom.Proofs.Execution.Registering
import TraceLoom.Proofs.Numeric.Whole
import TraceLoom.Proofs.Trace.Growth
import TraceLoom.Proofs.Recorder.Growth
import TraceLoom.Proofs.Recorder.Scopes
import TraceLoom.Proofs.Recorder.Confinement
import TraceLoom.Proofs.Recorder.Endings
import TraceLoom.Proofs.Recorder.History
import TraceLoom.Proofs.Script.NormalNames
import TraceLoom.Proofs.Script.Lexing
import TraceLoom.Proofs.Script.Precedence
import TraceLoom.Proofs.Script.Phrases
import TraceLoom.Proofs.Script.Primaries
import TraceLoom.Proofs.Script.Operands
import TraceLoom.Proofs.Script.RoundTrip
import TraceLoom.Proofs.Instrument.Accepted
import TraceLoom.Proofs.Instrument.Additions
import TraceLoom.Proofs.Execution.Requests
import TraceLoom.Proofs.Execution.Preservation
import TraceLoom.Proofs.Execution.Chronicle
import TraceLoom.Proofs.Host.Scene
import TraceLoom.Proofs.Host.Visits
import TraceLoom.Proofs.Host.Finality
import TraceLoom.Proofs.Host.Unrecorded
import TraceLoom.Proofs.Execution.Sessions
import TraceLoom.Proofs.Script.NormalShape
import TraceLoom.Proofs.Instrument.Supported
import TraceLoom.Proofs.Execution.Lowered
import TraceLoom.Proofs.Trace.Encoding
import TraceLoom.Proofs.Execution.Landing
import TraceLoom.Proofs.Execution.Aloof
import TraceLoom.Proofs.Script.Spelling
import TraceLoom.Proofs.Script.Spelled
import TraceLoom.Proofs.Instrument.Written
import TraceLoom.Proofs.Instrument.Rereading
import TraceLoom.Proofs.Instrument.Branches
import TraceLoom.Proofs.Execution.Repetition
import TraceLoom.Proofs.Execution.Allotment
import TraceLoom.Proofs.Execution.Minding
import TraceLoom.Proofs.Execution.Contexts
import TraceLoom.Proofs.Instrument.Temporaries
import TraceLoom.Proofs.Script.Bindings
import TraceLoom.Proofs.Script.NormalText
