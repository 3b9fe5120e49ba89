import WorkerBroker.Json.Printer
import WorkerBroker.Worker
/-!
# The CPU layout

Sockets hold cores, cores hold lcores. A layout lists its sockets in the order in which its
source gave them. `layoutText` is its published JSON text, with the members of each socket and
core in a fixed order.
-/

namespace WorkerBroker

/-- A core with its lcores. -/
structure Core where
  id : UInt32
  lcores : List UInt32
  deriving DecidableEq, Repr, Inhabited

/-- A socket with its cores. -/
structure Socket where
  id : UInt32
  cores : List Core
  deriving DecidableEq, Repr, Inhabited

/-- The lcores of a socket, ascending, each as often as the cores list it. -/
def Socket.lcores (s : Socket) : List UInt32 :=
  (s.cores.flatMap Core.lcores).mergeSort fun a b => a ≤ b

/-- What requests are answered with: a layout that cannot be read counts as one without
sockets. -/
def knownLayout : Except Failure (List Socket) → List Socket
  | .ok layout => layout
  | .error _ => []

/-! ## Published text -/

/-- The text of an id or an lcore. -/
def wordText (n : UInt32) : List Char :=
  Nat.toDigits 10 n.toNat

/-- The text of a list of lcores. -/
def lcoresText (ls : List UInt32) : List Char :=
  arrayText (ls.map wordText)

/-- The text of a core. -/
def Core.chars (c : Core) : List Char :=
  objectText [("core_id", wordText c.id), ("lcores", lcoresText c.lcores)]

/-- The text of a socket. -/
def Socket.chars (s : Socket) : List Char :=
  objectText [("socket_id", wordText s.id), ("cores", arrayText (s.cores.map Core.chars))]

/-- The text of a layout. -/
def layoutText (layout : List Socket) : String :=
  String.ofList (arrayText (layout.map Socket.chars))

end WorkerBroker
