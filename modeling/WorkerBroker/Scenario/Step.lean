import WorkerBroker.Scenario.World
/-!
# Scenarios

A scenario is a list of steps: workers connect and send things unasked, requests are made, and
members are used through handles, in the foreground or in the background. All that follows from a
step by itself has happened before the next one. `Scenario.play` gives the report of each step
with the lines that workers received during it.
-/

namespace WorkerBroker

/-- Where a worker connects. -/
inductive Listener where
  | primary
  | secondary
  deriving DecidableEq, Repr, Inhabited

/-- How a step names a member. -/
inductive Choice where
  | handle (name : String)
  | id (id : UInt32)
  deriving DecidableEq, Repr, Inhabited

/-- A change to a script: what is given takes the place of what was there. -/
structure ScriptChange where
  handshake : Option Answer
  status : Option Answer
  replies : Option (List Answer)
  deriving DecidableEq, Repr, Inhabited

/-- The script after a change. -/
def ScriptChange.apply (c : ScriptChange) (s : Script) : Script :=
  ⟨c.handshake.or s.handshake, c.status.or s.status, c.replies.getD s.replies⟩

/-- What is done with a member that a step names. -/
inductive Use where
  /-- keep it under a name -/
  | hold (name : String)
  | execute (command : Command)
  /-- the same in the background -/
  | executeLater (command : Command) (job : String)
  | exit
  | close
  | retire
  | connected
  | label
  /-- give it the connection of a new worker -/
  | replace (worker : String) (script : Script)
  | insert
  | remove
  deriving Repr

/-- A step of a scenario. -/
inductive ScenarioStep where
  | connect (worker : String) (listener : Listener) (script : Script) (wait : Bool)
  | request (request : Request)
  /-- a request in the background -/
  | requestLater (request : Request) (job : String)
  | isDone (job : String)
  | join (job : String)
  /-- workers send something unasked -/
  | push (answers : List (String × Answer))
  | script (worker : String) (change : ScriptChange)
  | isClosed (worker : String)
  | registry
  | size
  | primary
  | secondary (kind : WorkerKind) (id : UInt32)
  | terminate (kind : WorkerKind) (id : UInt32)
  | unused (master : Option UInt32)
  | use (member : Choice) (what : Use)
  /-- stop listening; `word` is the report -/
  | stopListening (word : String)
  deriving Repr

namespace World

/-! ## Steps -/

/-- A worker connects. -/
def connect (name : String) (listener : Listener) (script : Script) (wait : Bool) (w : World) :
    Report × World :=
  if !(w.listening && w.host.connects) then (.word "refused", w)
  else
    let (link, w) := w.join name script
    let program := match listener with
      | .primary => Program.registerPrimary link
      | .secondary => Program.registerSecondary link
    let (c, w) := w.startCall (do program; return .word "registered") [] (some link)
    if wait then
      let w := w.finish c
      (.word (if w.isClosed link then "closed" else "registered"), w)
    else (.word "pending", w)

/-- The program of a request. -/
def answer (request : Request) (w : World) : Program Report := do
  return .response (← Gateway.handle w.layout request)

/-- A call in the background. -/
def background (job : String) (program : Program Report) (refs : List Ref) (w : World) :
    Report × World :=
  let (c, w) := w.startCall program refs none
  (.word "started", { w with jobs := Table.put job c w.jobs })

/-- The end of a call in the background. -/
def joinJob (job : String) (w : World) : Report × World :=
  match Table.find? job w.jobs with
  | none => (.word "no job", w)
  | some c =>
    let w := w.finish c
    ((w.result? c).getD (.word "no result"), { w with jobs := Table.remove job w.jobs })

/-- Workers send something unasked. -/
def push (answers : List (String × Answer)) (w : World) : World :=
  answers.foldl (fun w (name, a) =>
    match w.peer? name with
    | none => w
    | some p =>
      let (p, broker) := p.send a w.broker
      { w.changePeer name (fun _ => p) with broker }) w

/-- Keep a member under a name; the one that was kept under it is let go. -/
def hold (name : String) (r : Ref) (w : World) : World :=
  let handles := Table.put name r w.handles
  { w with handles, broker := { w.broker with held := handles.map Prod.snd } }

/-- Give a member the connection of a new worker; one that is handed back is dropped. -/
def replace (name : String) (script : Script) (r : Ref) (w : World) : Report × World :=
  let (link, w) := w.join name script
  w.call (do
    match ← Program.replaceConnection r link with
    | .handedBack =>
      Program.discard link
      return .flag false
    | _ => return .flag true) [r]

/-- Do something with a member. -/
def apply (r : Ref) (w : World) : Use → Report × World
  | .hold name => (.label (.ok r.label), w.hold name r)
  | .execute command => w.call (do return .reply (← Program.execute r command)) [r]
  | .executeLater command job =>
    w.background job (do return .reply (← Program.execute r command)) [r]
  | .exit => w.call (do return .reply (← Program.exit r)) [r]
  | .close => w.call (do Program.close r; return .word "closed") [r]
  | .retire => w.call (do return .flag (← Program.retire r)) [r]
  | .connected => w.call (do return .flag (← Program.isConnected r)) [r]
  | .label => (.label (.ok r.label), w)
  | .replace name script => w.replace name script r
  | .insert => w.call (do return .displaced ((← Program.reinstate r).map Ref.label)) [r]
  | .remove => w.call (do return .flag (← Program.strike r)) [r]

/-- The member that a step names. -/
def pick? (c : Choice) (w : World) : Option Ref :=
  match c with
  | .handle name => Table.find? name w.handles
  | .id id => Table.find? id w.broker.registry

/-- The report of a step, and the world once it has been taken. -/
def take (w : World) : ScenarioStep → Report × World
  | .connect name listener script wait => w.connect name listener script wait
  | .request request => w.call (w.answer request) []
  | .requestLater request job => w.background job (w.answer request) []
  | .isDone job =>
    match Table.find? job w.jobs with
    | some c => (.flag (w.result? c).isSome, w)
    | none => (.nothing, w)
  | .join job => w.joinJob job
  | .push answers => (.word "pushed", w.push answers)
  | .script name change =>
    (.word "loaded", w.changePeer name fun p => { p with script := change.apply p.script })
  | .isClosed name => (.flag ((w.peer? name).any fun p => w.isClosed p.link), w)
  | .registry => (.rows w.rows, w)
  | .size => (.size w.broker.registry.length, w)
  | .primary => w.call (do return .label ((← Program.primary).map Ref.label)) []
  | .secondary kind id =>
    w.call (do return .label ((← Program.secondary kind id).map Ref.label)) []
  | .terminate kind id => w.call (do return .flag (← Program.dismiss kind id).isSome) []
  | .unused master => w.call (do
      return .word (String.ofList (unusedText (← Program.cpuUnused w.layout master)))) []
  | .use member what =>
    match w.pick? member with
    | some r => w.apply r what
    | none => (.word "no process", w)
  | .stopListening word => (.word word, { w with listening := false })

/-! ## What workers received -/

/-- The lines of each worker, the workers by name. -/
def heardByName (w : World) : List (String × String) :=
  w.heard.mergeSort fun a b => a.1 ≤ b.1

/-- Take a step and let everything that follows happen. -/
def stepOn (w : World) (s : ScenarioStep) : (Report × List (String × String)) × World :=
  let (report, w) := { w with heard := [] }.take s
  let w := w.settle
  ((report, w.heardByName), w)

end World

namespace Scenario

/-- The reports of steps, each with the lines that workers received during it. A step that cannot
be made sense of changes nothing. -/
def play : World → List (Except Failure ScenarioStep) →
    List (Except Failure Report × List (String × String))
  | _, [] => []
  | w, .error e :: steps => (.error e, []) :: play w steps
  | w, .ok s :: steps =>
    let ((report, heard), w) := w.stepOn s
    (.ok report, heard) :: play w steps

end Scenario

end WorkerBroker
