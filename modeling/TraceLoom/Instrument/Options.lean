/-!
The names an instrumented program uses to reach the recorder.
-/

namespace TraceLoom

structure InstrumentOptions where
  /-- The module that builds trace trees. -/
  expModule : String
  /-- The module with the recorder and the host operations. -/
  callbacksModule : String
  /-- The label of every function body; a return breaks to it. -/
  returnLabel : String
  expBinding : String
  callbacksBinding : String
  deriving DecidableEq, Repr

namespace InstrumentOptions

def default : InstrumentOptions where
  expModule := "containerless/exp"
  callbacksModule := "containerless"
  returnLabel := "'ret"
  expBinding := "exp"
  callbacksBinding := "cb"

/-- Whether a name is taken by the instrumented program itself. -/
def isReserved (options : InstrumentOptions) (name : String) : Bool :=
  name == options.expBinding || name == options.callbacksBinding

end InstrumentOptions

end TraceLoom
