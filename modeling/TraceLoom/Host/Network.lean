import TraceLoom.Host.Event
import TraceLoom.Json.Reader

/-!
Outbound requests.  Answers are fixed in advance, by method and URL; every request is noted.  A
`data:` URL carries its own answer and is no request.
-/

namespace TraceLoom

inductive HostError where
  | noRoute (method : Event) (url : String)
  /-- The text of a `data:` URL is not JSON. -/
  | invalidData
  | notARequest (event : Event)
  deriving DecidableEq, Repr

def HostError.message : HostError → String
  | noRoute method url => "no route for " ++ method.name ++ " " ++ url
  | invalidData => "invalid data URL payload"
  | notARequest event => event.name ++ " is not an outbound request"

/-- The answer to requests of one method to one URL. -/
structure Route where
  method : Event
  url : String
  response : Json

structure Request where
  method : Event
  url : String
  body : Option Json

structure Network where
  /-- Of several routes for the same request the last one counts. -/
  routes : List Route
  /-- Requests sent so far, the latest first. -/
  sent : List Request

namespace Network

def ofRoutes (routes : List Route) : Network :=
  ⟨routes, []⟩

def send (n : Network) (request : Request) : Except HostError Json × Network :=
  let route := n.routes.reverse.find? fun route =>
    route.method = request.method ∧ route.url = request.url
  let answer := match route with
    | some route => .ok route.response
    | none => .error (.noRoute request.method request.url)
  (answer, { n with sent := request :: n.sent })

/-- The answer that a `data:` URL carries; `none` for other URLs. -/
def dataUrl? (url : String) : Option (Except HostError Json) :=
  if url.startsWith "data:" then
    match Json.read? ((url.drop 5).toString) with
    | some value => some (.ok value.canonical)
    | none => some (.error .invalidData)
  else none

end Network

end TraceLoom
