import WorkerBroker.Broker.Move
/-!
# Scripted workers

A worker in a scenario answers each line it receives from a script: the question who it is and
the question for its status may have answers of their own, everything else is answered from a
queue, and with plain success once that is empty. An answer may also end the stream or reset the
connection; after that the worker still receives lines but answers none.
-/

namespace WorkerBroker

/-- What a worker sends at once. -/
structure Answer where
  bytes : Bytes
  /-- it ends its stream afterwards -/
  ends : Bool
  /-- it resets the connection afterwards -/
  resets : Bool
  deriving DecidableEq, Repr, Inhabited

namespace Answer

/-- Plain success. -/
def success : Answer := ⟨Utf8.encode "\x7b\"result\":\"success\"\x7d", false, false⟩

/-- What reaches the broker. -/
def signals (a : Answer) : List Signal :=
  (if a.bytes.isEmpty then [] else [.bytes a.bytes]) ++
    (if a.ends then [.ended] else []) ++ (if a.resets then [.reset] else [])

/-- Whether it is the last answer. -/
def isLast (a : Answer) : Bool := a.ends || a.resets

end Answer

/-- What a worker answers. -/
structure Script where
  handshake : Option Answer
  status : Option Answer
  replies : List Answer
  deriving DecidableEq, Repr, Inhabited

/-- The answer to a line, with the script that is left. -/
def Script.answerTo (line : String) (s : Script) : Answer × Script :=
  match if line = Command.identify.line then s.handshake
    else if line = Command.status.line then s.status else none with
  | some a => (a, s)
  | none =>
    match s.replies with
    | a :: rest => (a, { s with replies := rest })
    | [] => (.success, s)

/-- A worker in a scenario. -/
structure Peer where
  name : String
  link : Nat
  script : Script
  /-- how many lines it has received -/
  received : Nat
  /-- it has ended or reset its stream -/
  silent : Bool
  deriving DecidableEq, Repr, Inhabited

namespace Peer

variable {ω : Type}

/-- Send something to the broker. -/
def send (a : Answer) (p : Peer) (b : Broker ω) : Peer × Broker ω :=
  if p.silent then (p, b)
  else
    ({ p with silent := a.isLast },
      a.signals.foldl (fun b s => b.changeLink p.link (Link.arrive s)) b)

/-- The lines it has not received yet. -/
def unread (p : Peer) (b : Broker ω) : List String :=
  (b.link p.link).sent.drop p.received

/-- Receive a line and answer it. -/
def receive (line : String) (p : Peer) (b : Broker ω) : Peer × Broker ω :=
  let p := { p with received := p.received + 1 }
  if p.silent then (p, b)
  else
    let (a, script) := p.script.answerTo line
    send a { p with script } b

/-- Receive all lines that are there. -/
def receiveAll (p : Peer) (b : Broker ω) : Peer × Broker ω :=
  (p.unread b).foldl (fun (p, b) line => p.receive line b) (p, b)

end Peer

end WorkerBroker
