import WorkerBroker.Failure
import WorkerBroker.Http.Request
import WorkerBroker.Json.Printer
/-!
# Responses

A response has a status, a body and at most two headers of interest. A payload is JSON; a failure
is plain text, except that an error a worker reported is passed on as the JSON it is.
-/

namespace WorkerBroker

/-- What a body is. -/
inductive ContentType where
  | json
  | text
  deriving DecidableEq, Repr, Inhabited

/-- The name of a content type. -/
def ContentType.name : ContentType → String
  | json => "application/json"
  | text => "text/plain; charset=utf-8"

/-- A response. -/
structure Response where
  status : Nat
  contentType : Option ContentType
  /-- the methods that the path admits -/
  allow : Option (List Method)
  body : String
  deriving DecidableEq, Repr, Inhabited

namespace Response

/-- Nothing but a status. -/
def bare (status : Nat) : Response := ⟨status, none, none, ""⟩

/-- A call without a payload has succeeded. -/
def noContent : Response := bare 204

/-- A payload. -/
def json (text : List Char) : Response := ⟨200, some .json, none, String.ofList text⟩

/-- A message. -/
def text (status : Nat) (message : String) : Response := ⟨status, some .text, none, message⟩

/-- A failure. -/
def failure : Failure → Response
  | .rejected detail reply =>
    ⟨(Failure.rejected detail reply).status, some .json, none, reply.text⟩
  | e => text e.status e.message

/-- A payload or a failure. -/
def ofPayload : Except Failure (List Char) → Response
  | .ok payload => json payload
  | .error e => failure e

/-- Success without a payload, or a failure. -/
def ofDone {α : Type} : Except Failure α → Response
  | .ok _ => noContent
  | .error e => failure e

/-- The response without its body. -/
def withoutBody (r : Response) : Response := { r with body := "" }

/-- The text of the header that lists the methods a path admits. -/
def allowText (methods : List Method) : String :=
  ",".intercalate (methods.map Method.name)

/-- The headers that let pages of any origin read the responses. A request for the options is
also told that any method and any header may be used. -/
def originHeaders (m : Method) : List (String × String) :=
  let origin := ("access-control-allow-origin", "*")
  if m = .options then
    [origin, ("access-control-allow-methods", "*"), ("access-control-allow-headers", "*")]
  else [origin]

end Response

end WorkerBroker
