import WorkerBroker.Text.Cut
import WorkerBroker.Text.Percent
/-!
# Requests

A request has a method, a target and a body. The target is a path and maybe a query; what follows
a `#` does not belong to it. The path is cut into segments at its slashes, before anything in it
is decoded, so an encoded slash stays within its segment.
-/

namespace WorkerBroker

/-- The method of a request. -/
inductive Method where
  | get
  | head
  | post
  | put
  | delete
  | options
  | other (name : String)
  deriving DecidableEq, Repr, Inhabited

namespace Method

/-- The methods that some path admits. -/
def known : List Method := [get, head, post, put, delete, options]

/-- The name of a method. -/
def name : Method → String
  | get => "GET"
  | head => "HEAD"
  | post => "POST"
  | put => "PUT"
  | delete => "DELETE"
  | options => "OPTIONS"
  | other s => s

/-- The method of that name. Case matters. -/
def ofName (s : String) : Method :=
  (known.find? fun m => m.name = s).getD (.other s)

end Method

/-- What a request is about. -/
structure Target where
  /-- what stands between the slashes of the path, not decoded -/
  segments : List String
  query : Option String
  deriving DecidableEq, Repr, Inhabited

namespace Target

/-- The path without the scheme and the host that may stand before it. -/
def withoutHost (cs : List Char) : List Char :=
  match cs with
  | '/' :: _ => cs
  | _ =>
    match cs.dropWhile (· != ':') with
    | ':' :: '/' :: '/' :: rest => rest.dropWhile (· != '/')
    | _ => cs

/-- The target of a text. -/
def ofText (s : String) : Target :=
  let whole := s.toList.takeWhile (· != '#')
  let path := withoutHost (whole.takeWhile (· != '?'))
  let query := (whole.dropWhile (· != '?')).tail?
  ⟨(cutAt '/' (path.drop 1)).map String.ofList, query.map String.ofList⟩

end Target

/-- A request. -/
structure Request where
  method : Method
  target : Target
  body : Bytes
  deriving DecidableEq, Repr, Inhabited

end WorkerBroker
