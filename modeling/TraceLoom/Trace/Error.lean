import TraceLoom.Trace.Merge

/-!
Why an execution cannot be recorded.
-/

namespace TraceLoom

inductive TraceError where
  /-- The execution disagrees with what was recorded. -/
  | mismatch (cause : Mismatch)
  /-- A block was left at `cursor` although an earlier execution went on there. -/
  | prematureExit (cursor length : Nat) (next : String)
  /-- The execution went on where every earlier one left the block. -/
  | overrun (length : Nat)
  | exitPastTop
  | noOpenBlock
  | labelNotOpen (name : String)
  | noPendingArgs
  | arity (arity limit : Nat)
  | scopeMismatch (expected found : String)
  | unknownContext (id : Nat)
  | noConversation
  /-- The conversation has been answered already. -/
  | unknownConversation (id : Nat)
  /-- A path leads to no statement list. -/
  | danglingPath
  /-- An earlier error made the recorder unusable. -/
  | poisoned (cause : TraceError)
  deriving DecidableEq, Repr

def TraceError.message : TraceError → String
  | mismatch cause => "execution diverged from the recorded trace: " ++ cause.message
  | prematureExit cursor length next =>
    "block exited at step " ++ toString cursor ++ " of " ++ toString length ++ "; a " ++ next ++
      " was recorded next"
  | overrun length =>
    "execution ran past the end of a block recorded with " ++ toString length ++ " steps"
  | exitPastTop => "exit_block called with no open block"
  | noOpenBlock => "no open block; call new_trace first"
  | labelNotOpen name => "break targets label `" ++ name ++ "`, which is not open"
  | noPendingArgs => "function body entered with no pending call arguments"
  | arity count limit =>
    "function body declares " ++ toString count ++ " parameters; at most " ++ toString limit ++
      " are supported"
  | scopeMismatch expected found =>
    "expected the innermost scope to be a " ++ expected ++ ", found a " ++ found
  | unknownContext id => "unknown trace context #" ++ toString id
  | noConversation => "respond called outside of any request"
  | unknownConversation id => "conversation " ++ toString id ++ " has no pending response"
  | danglingPath => "cursor path no longer resolves to a block"
  | poisoned cause => "recorder is unusable after an earlier error: " ++ cause.message

end TraceLoom
