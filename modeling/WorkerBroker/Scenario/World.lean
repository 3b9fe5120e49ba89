import WorkerBroker.Broker.Registration
import WorkerBroker.Broker.Schedule
import WorkerBroker.Host
import WorkerBroker.Http.Gateway
import WorkerBroker.Scenario.Peer
/-!
# The world of a scenario

A broker on some host, its workers, and what a scenario keeps by name: handles to members and
calls that go on in the background. The broker and its workers react to each other until nothing
can happen without time passing (`World.settle`); time passes only to wait for the end of a call
(`World.finish`).
-/

namespace WorkerBroker

/-- What the registry shows under one id. -/
structure Row where
  id : UInt32
  label : String
  generation : Nat
  /-- whether there is a connection; unknown while the member serves someone -/
  connected : Option Bool
  deriving DecidableEq, Repr, Inhabited

/-- What a step of a scenario results in. -/
inductive Report where
  | word (text : String)
  | flag (value : Bool)
  | response (response : Response)
  | reply (reply : Except Failure Json)
  | label (label : Except Failure String)
  /-- the label of the member that was displaced -/
  | displaced (label : Option String)
  | rows (rows : List Row)
  | size (count : Nat)
  /-- there is nothing to report on -/
  | nothing
  deriving Inhabited

/-- The world of a scenario. -/
structure World where
  host : Host
  broker : Broker Report
  layout : List Socket
  /-- the latest first -/
  peers : List Peer
  handles : Table String Ref
  jobs : Table String Nat
  listening : Bool
  /-- the lines that workers received in this step, each with the name of the worker -/
  heard : List (String × String)

namespace World

/-- A broker that has just been started; `layout` is what reading the layout comes to. -/
def start (host : Host) (timeout : Nat) (layout : Except Failure (List Socket)) : World :=
  ⟨host, .fresh timeout, knownLayout layout, [], [], [], true, []⟩

/-! ## Workers -/

/-- The worker of that name. -/
def peer? (name : String) (w : World) : Option Peer :=
  w.peers.find? fun p => p.name = name

/-- Change the worker of that name. -/
def changePeer (name : String) (f : Peer → Peer) (w : World) : World :=
  match w.peers.findIdx? fun p => p.name = name with
  | some i => { w with peers := w.peers.modify i f }
  | none => w

/-- Each worker receives and answers what has been written to it. -/
def react (w : World) : World :=
  let (broker, peers, heard) := w.peers.foldl (fun (b, done, heard) p =>
    let lines := p.unread b
    let (p, b) := p.receiveAll b
    (b, done ++ [p], heard ++ lines.map fun line => (p.name, line))) (w.broker, [], w.heard)
  { w with broker, peers, heard }

/-! ## What happens by itself -/

/-- Let the broker and its workers react to each other, for so many moves at most. -/
def settleFor : Nat → World → World
  | 0, w => w
  | n + 1, w =>
    let w := w.react
    match w.broker.proceed? with
    | some broker => settleFor n { w with broker }
    | none => w

/-- Let the broker and its workers react to each other. -/
def settle (w : World) : World :=
  w.settleFor (w.broker.patience + 1)

/-- Wait for the end of a call, for so many deadlines at most. -/
def finishFor : Nat → Nat → World → World
  | 0, _, w => w.settle
  | n + 1, c, w =>
    let w := w.settle
    if (w.broker.calls[c]?.bind Call.result?).isSome then w
    else
      match w.broker.elapse? with
      | some broker => finishFor n c { w with broker }
      | none => w

/-- Wait for the end of a call. -/
def finish (c : Nat) (w : World) : World :=
  w.finishFor w.broker.patience c

/-- The result of a call. -/
def result? (c : Nat) (w : World) : Option Report :=
  w.broker.calls[c]?.bind Call.result?

/-! ## Calls -/

/-- Make a move that is possible. -/
def make (m : Move Report) (w : World) : World :=
  match w.broker.step m with
  | some broker => { w with broker }
  | none => w

/-- Start a call; answers its number. -/
def startCall (program : Program Report) (refs : List Ref) (brings : Option Nat) (w : World) :
    Nat × World :=
  (w.broker.calls.length, w.make (.start program refs brings))

/-- Start a call and wait for its result. -/
def call (program : Program Report) (refs : List Ref) (w : World) : Report × World :=
  let (c, w) := w.startCall program refs none
  let w := w.finish c
  ((w.result? c).getD (.word "no result"), w)

/-- A worker connects; answers the number of its connection. -/
def join (name : String) (script : Script) (w : World) : Nat × World :=
  let link := w.broker.links.length
  (link, { w.make .accept with peers := ⟨name, link, script, 0, false⟩ :: w.peers })

/-- Whether the broker has closed a connection. -/
def isClosed (link : Nat) (w : World) : Bool :=
  (w.broker.link link).closed

/-! ## The registry -/

/-- What the registry shows under an id. -/
def row (w : World) (r : Ref) : Row :=
  let m := w.broker.member r.number
  ⟨r.id, r.label, m.generation, if m.queue.isEmpty then some m.channel.isSome else none⟩

/-- What the registry shows. -/
def rows (w : World) : List Row :=
  w.broker.registry.map fun e => w.row e.2

end World

end WorkerBroker
