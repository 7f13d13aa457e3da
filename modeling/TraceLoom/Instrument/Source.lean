import TraceLoom.Instrument.Weave
import TraceLoom.Script.NormalForm
import TraceLoom.Script.Parser

/-!
From the text of a program to the text of the instrumented program.
-/

namespace TraceLoom

open Script

/-- Why a text cannot be instrumented. -/
inductive SourceError where
  | parse (cause : ParseError)
  | instrument (cause : InstrumentError)
  deriving DecidableEq, Repr

def SourceError.message : SourceError → String
  | parse cause => "Parse error: " ++ cause.message
  | instrument cause => "Instrumentation error: " ++ cause.message

def instrumentText (options : InstrumentOptions) (text : String) : Except SourceError Program := do
  let program ← (parse text).mapError .parse
  let normal ← (normalize program).mapError .parse
  (instrument options .default normal).mapError .instrument

/-- The text of the instrumented program of a text. -/
def instrumentSource (options : InstrumentOptions) (text : String) : Except SourceError String :=
  return (← instrumentText options text).toSource

end TraceLoom
