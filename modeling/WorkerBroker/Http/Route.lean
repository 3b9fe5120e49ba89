import WorkerBroker.Http.Order
import WorkerBroker.Http.Response
/-!
# Routes

What a path admits is a list of methods, each with what it does (`Errand`). A path that is not
known admits none. Paths are compared as they stand, before percent signs are decoded. A segment
that names something may be empty, but not at the end of a path.
-/

namespace WorkerBroker

/-- What is done with one worker. -/
inductive Action where
  /-- show its status -/
  | display
  | exit
  | clear
  | resetPatches
  | stopComponent (name : String)
  | order (order : Order)
  deriving DecidableEq, Repr, Inhabited

/-- How a path names a worker. -/
inductive Address where
  | primary
  /-- by its kind and the text of its id -/
  | secondary (kind : WorkerKind) (id : String)
  deriving DecidableEq, Repr, Inhabited

/-- What a request is for. -/
inductive Errand where
  | listing
  | cpuUsage
  | cpuLayout
  | cpuUnused
  | worker (address : Address) (action : Action)
  deriving DecidableEq, Repr, Inhabited

/-! ## The paths -/

/-- What the paths below the primary admit. -/
def primaryRoutes : List String → List (Method × Action)
  | [] => [(.get, .display), (.delete, .exit)]
  | ["status"] => [(.get, .display), (.delete, .clear)]
  | ["forward"] => [(.put, .order .forward)]
  | ["ports"] => [(.put, .order .port)]
  | ["patches"] => [(.put, .order .patch), (.delete, .resetPatches)]
  | ["launch"] => [(.put, .order .launch)]
  | _ => []

/-- What the paths below a forwarder admit. -/
def forwarderRoutes : List String → List (Method × Action)
  | [] => [(.get, .display), (.delete, .exit)]
  | ["forward"] => [(.put, .order .forward)]
  | ["ports"] => [(.put, .order .port)]
  | ["patches"] => [(.put, .order .patch), (.delete, .resetPatches)]
  | _ => []

/-- What the paths below a worker that runs components admit. -/
def componentRoutes : List String → List (Method × Action)
  | [] => [(.get, .display), (.delete, .exit)]
  | ["components"] => [(.post, .order .startComponent)]
  | ["components", name] => if name = "" then [] else [(.delete, .stopComponent name)]
  | ["components", name, "ports"] => [(.put, .order (.componentPort name))]
  | _ => []

/-- What the paths below a classifier admit. -/
def classifierRoutes : List String → List (Method × Action)
  | ["classifier_table"] => [(.put, .order .classifierTable)]
  | path => componentRoutes path

/-- What the paths below a capture admit. -/
def captureRoutes : List String → List (Method × Action)
  | [] => [(.get, .display), (.delete, .exit)]
  | ["capture"] => [(.put, .order .capture)]
  | _ => []

/-- What the paths below a secondary admit. -/
def secondaryRoutes : WorkerKind → List String → List (Method × Action)
  | .primary, _ => []
  | .nfv, path => forwarderRoutes path
  | .vf, path => classifierRoutes path
  | .mirror, path => componentRoutes path
  | .pcap, path => captureRoutes path

/-- The kind of the secondaries of a collection. -/
def collectionKind? (collection : String) : Option WorkerKind :=
  if collection = "nfvs" then some .nfv
  else if collection = "vfs" then some .vf
  else if collection = "mirrors" then some .mirror
  else if collection = "pcaps" then some .pcap
  else none

/-- What the paths below a collection admit. -/
def collectionRoutes (collection id : String) (path : List String) : List (Method × Errand) :=
  match collectionKind? collection with
  | none => []
  | some kind =>
    if id = "" && path.isEmpty then []
    else (secondaryRoutes kind path).map fun (m, a) => (m, .worker (.secondary kind id) a)

/-- What a path admits, by its segments. -/
def routes : List String → List (Method × Errand)
  | ["v1", "processes"] => [(.get, .listing)]
  | ["v1", "cpu_usage"] => [(.get, .cpuUsage)]
  | ["v1", "cpu_layout"] => [(.get, .cpuLayout)]
  | ["v1", "cpu_unused"] => [(.get, .cpuUnused)]
  | "v1" :: "primary" :: path => (primaryRoutes path).map fun (m, a) => (m, .worker .primary a)
  | "v1" :: collection :: id :: path => collectionRoutes collection id path
  | _ => []

/-! ## Methods -/

/-- The methods that routes admit; one that can be got can also be looked at without its body. -/
def admittedMethods (rs : List (Method × Errand)) : List Method :=
  rs.flatMap fun r => if r.1 = .get then [.get, .head] else [r.1]

/-- What a method is for among routes. -/
def errandFor? (m : Method) (rs : List (Method × Errand)) : Option Errand :=
  (rs.find? fun r => r.1 = (if m = .head then .get else m)).map Prod.snd

/-! ## Segments that name something -/

/-- The text of a segment with its percent signs decoded. -/
def decodeSegment (parameter raw : String) : Except Response String :=
  match Utf8.decode (percentDecode (Utf8.encode raw)) with
  | some cs => .ok (String.ofList cs)
  | none => .error (.text 400 ("Invalid URL: Invalid UTF-8 in \x60" ++ parameter ++ "\x60"))

/-- An address with its text decoded. -/
def Address.decode : Address → Except Response Address
  | primary => .ok primary
  | secondary kind id => (decodeSegment "sec_id" id).map (secondary kind)

/-- An order with its text decoded. -/
def Order.decode : Order → Except Response Order
  | componentPort name => (decodeSegment "name" name).map componentPort
  | o => .ok o

/-- An action with its text decoded. -/
def Action.decode : Action → Except Response Action
  | stopComponent name => (decodeSegment "name" name).map stopComponent
  | order o => o.decode.map order
  | a => .ok a

/-- An errand with its texts decoded. The id comes first. -/
def Errand.decode : Errand → Except Response Errand
  | worker address action => do return worker (← address.decode) (← action.decode)
  | e => .ok e

end WorkerBroker
