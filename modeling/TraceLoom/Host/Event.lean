/-!
Host operations that take a callback.
-/

namespace TraceLoom

inductive Event where
  | get | post | put | delete | listen | immediate
  deriving DecidableEq, Repr

namespace Event

def all : List Event :=
  [get, post, put, delete, listen, immediate]

def name : Event → String
  | get => "get"
  | post => "post"
  | put => "put"
  | delete => "delete"
  | listen => "listen"
  | immediate => "immediate"

def ofName? (name : String) : Option Event :=
  all.find? fun event => event.name == name

theorem ofName?_name (event : Event) : ofName? event.name = some event := by
  cases event <;> decide

/-- The parameter of the callback, as traces name it. -/
def param : Event → String
  | listen => "request"
  | immediate => "x"
  | _ => "response"

/-- Whether the callback may run more than once. -/
def isRepeating : Event → Bool
  | listen => true
  | _ => false

def isRequest : Event → Bool
  | get | post | put | delete => true
  | _ => false

end Event

end TraceLoom
