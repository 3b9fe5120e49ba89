import WorkerBroker.Broker.Program
import WorkerBroker.Wire
/-!
# Connections

The broker's end of a connection to a worker: what has arrived and has not been read, the lines
that were written, and whether the broker has closed it. What the worker does with its end
reaches the broker as a `Signal`.
-/

namespace WorkerBroker

/-- The broker's end of a connection. -/
structure Link where
  inbox : Inbox
  /-- the lines that were written, in order -/
  sent : List String
  /-- the broker has closed its end -/
  closed : Bool
  deriving DecidableEq, Repr, Inhabited

/-- What a worker does with its end of a connection. -/
inductive Signal where
  | bytes (bytes : Bytes)
  /-- it ends its sending side -/
  | ended
  /-- it resets the connection -/
  | reset
  deriving DecidableEq, Repr

namespace Link

/-- A fresh connection. -/
def fresh : Link := ⟨.empty, [], false⟩

/-- What a worker does arrives. After it has ended or reset the stream nothing more comes, and
nothing reaches an end that is closed. -/
def arrive (s : Signal) (l : Link) : Link :=
  if l.closed || l.inbox.ending != .stillOpen then l
  else
    match s with
    | .bytes bytes => { l with inbox := l.inbox.arrive bytes }
    | .ended => { l with inbox := { l.inbox with ending := .ended } }
    | .reset => { l with inbox := { l.inbox with ending := .reset } }

/-- Whether a line can be written: to a worker that has only ended its own sending side it can. -/
def isWritable (l : Link) : Bool :=
  !l.closed && l.inbox.ending != .reset

/-- Write a line. -/
def write (line : String) (l : Link) : Link :=
  { l with sent := l.sent ++ [line] }

/-- Close the broker's end. -/
def hangUp (l : Link) : Link :=
  { l with closed := true }

/-- Read one reply, if something can be read: bytes, the end of the stream, or a reset. -/
def receive? (l : Link) : Option (Outcome × Link) :=
  match l.inbox.readReply with
  | (.reply bytes, inbox) => some (.ok bytes, { l with inbox })
  | (.eof, inbox) => some (.error .closed, { l with inbox })
  | (.reset, inbox) => some (.error .reset, { l with inbox })
  | (.blocked, _) => none

end Link

end WorkerBroker
