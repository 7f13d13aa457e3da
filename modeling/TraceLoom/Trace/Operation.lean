import TraceLoom.Trace.Recorder

/-!
Operations of the recorder as data, and what each of them gives.
-/

namespace TraceLoom

inductive Operation where
  | restart
  | bind (name : String) (value : Trace)
  | assign (target : Target) (value : Trace)
  | primitive (event : String) (args : List Trace)
  | branch (taken : Bool) (test : Trace)
  | loop (test : Trace)
  | iterate
  | label (name : String)
  | breakTo (name : String) (value : Trace)
  | call (name : String) (args : List Trace)
  | enterBody (label : String) (arity : Nat)
  | pushArgs (args : List Trace)
  | popArgs
  | callback (event : String) (arg : Trace) (params : List String) (closure : Trace)
  | exit
  | switchTo (id : ContextId)
  | release (id : ContextId)

inductive Operation.Outcome where
  | done
  | args (args : List Trace)
  | context (id : ContextId)

def Operation.perform : Operation → Recording Outcome
  | .restart => do Recorder.restart; return .done
  | .bind name value => do Recorder.bind name value; return .done
  | .assign target value => do Recorder.assign target value; return .done
  | .primitive event args => do Recorder.primitive event args; return .done
  | .branch taken test => do Recorder.branch taken test; return .done
  | .loop test => do Recorder.loop test; return .done
  | .iterate => do Recorder.iterate; return .done
  | .label name => do Recorder.label name; return .done
  | .breakTo name value => do Recorder.breakTo name value; return .done
  | .call name args => do Recorder.call name args; return .done
  | .enterBody name arity => return .args (← Recorder.enterBody name arity)
  | .pushArgs args => do Recorder.pushArgs args; return .done
  | .popArgs => return .args (← Recorder.popArgs)
  | .callback event arg params closure =>
    return .context (← Recorder.callback event arg params closure)
  | .exit => do Recorder.exit; return .done
  | .switchTo id => return .context (← Recorder.switchTo id)
  | .release id => do Recorder.release id; return .done

end TraceLoom
