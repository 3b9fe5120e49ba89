import WorkerBroker.Broker.State
/-!
# What can happen

One inductive type lists everything that can happen to the broker (`Move`): the atomic steps of
its calls, what workers do, and the passing of time. `Broker.step` says when a move is possible
and what it leads to. Calls proceed in any order; only the queue of a member is first come first
served. `Broker.Run` is what a sequence of moves leads to.

An exchange ends in one of five ways. A reply leaves the connection in place. An end of the
stream, a reset and a timeout close it, since a late reply would be taken for that of the next
command. If the generation of the member moves on, the exchange ends with the connection still
in its place; it is never used again, because its generation is no longer the member's.
-/

namespace WorkerBroker

/-- Something that happens. -/
inductive Move (ω : Type) where
  /-- a call is started, maybe for a fresh connection, with handles it has from outside -/
  | start (program : Program ω) (refs : List Ref) (brings : Option Nat)
  /-- a call does its next act or begins to wait -/
  | run (call : Nat)
  /-- a member turns to the ticket in front of its queue -/
  | serve (member : Nat)
  /-- a command of a call gets its reply, or meets the end of the stream or a reset -/
  | receive (call leg : Nat)
  /-- a command of a call ends because its connection is about to be replaced -/
  | supersede (call leg : Nat)
  /-- a command of a call has waited until its deadline -/
  | expire (call leg : Nat)
  /-- a fresh connection says who it is, or ends -/
  | hear (call : Nat)
  /-- a fresh connection has not said who it is until the deadline -/
  | giveUp (call : Nat)
  /-- whoever asked for a call goes away -/
  | abandon (call : Nat)
  /-- a worker connects -/
  | accept
  /-- a worker does something with its end of a connection -/
  | signal (link : Nat) (signal : Signal)
  /-- a member that nobody refers to any more loses its connection -/
  | release (member : Nat)
  | pass (time : Nat)

namespace Broker

variable {ω : Type}

/-! ## Waiting -/

/-- The phase of a call with these commands: it goes on once every one is over. -/
def phaseOf (legs : List Leg) (next : List Outcome → Program ω) : Phase ω :=
  match legs.mapM Leg.outcome? with
  | some outcomes => .running (next outcomes)
  | none => .conversing legs next

/-- A place in the queue of its member for each command, from the leg of number `i` on. -/
def queueLegs (call : Nat) : (i : Nat) → List (Ref × Command) → Broker ω → Broker ω
  | _, [], b => b
  | i, (r, _) :: cs, b => queueLegs call (i + 1) cs (b.queueUp r.number ⟨call, i⟩)

/-- A call begins to wait. -/
def beginWait (c : Nat) : (w : Wait) → (w.Answer → Program ω) → Broker ω → Broker ω
  | .enter r turn, next, b => (b.queueUp r.number ⟨c, 0⟩).setPhase c (.entering r turn next)
  | .converse commands, next, b =>
    (b.queueLegs c 0 commands).setPhase c
      (phaseOf (commands.map fun (r, command) => ⟨r, command, .queued⟩) next)
  | .greet link, next, b =>
    if (b.link link).isWritable then
      (b.changeLink link (Link.write Command.identify.line)).setPhase c
        (.greeting link (b.clock + b.timeout) next)
    else b.setPhase c (.running (next (.error .reset)))

/-- One step of a program. -/
def stepProgram (c : Nat) : Program ω → Broker ω → Broker ω
  | .done result, b => b.setPhase c (.finished result)
  | .act a next, b =>
    let (answer, b) := b.act a
    (b.meet c (refsOf a answer)).setPhase c (.running (next answer))
  | .wait w next, b => b.beginWait c w next

/-! ## Exchanges -/

/-- Change how far one command of a call is. -/
def setLeg (t : Ticket) (state : LegState) (b : Broker ω) : Broker ω :=
  match b.phase? t.call with
  | some (.conversing legs next) =>
    b.setPhase t.call (phaseOf (legs.modify t.leg fun l => { l with state }) next)
  | _ => b

/-- The ticket in front of a member's queue is over. -/
def conclude (n : Nat) (t : Ticket) (outcome : Outcome) (b : Broker ω) : Broker ω :=
  (b.serveNext n).setLeg t (.ended outcome)

/-- The ticket is over, and the connection is given up unless a reply came. -/
def settle (n : Nat) (t : Ticket) (outcome : Outcome) (b : Broker ω) : Broker ω :=
  match outcome with
  | .ok _ => b.conclude n t outcome
  | .error _ => (b.disconnect n).conclude n t outcome

/-- A command is written, if the connection of its member is there, current and working. -/
def beginExchange (n : Nat) (t : Ticket) (command : Command) (b : Broker ω) : Broker ω :=
  match (b.member n).channel with
  | none => b.conclude n t (.error .closed)
  | some ch =>
    if ch.generation ≠ (b.member n).generation then b.conclude n t (.error .replaced)
    else if (b.link ch.link).isWritable then
      (b.changeLink ch.link (Link.write command.line)).setLeg t
        (.talking ch.link (b.clock + b.timeout))
    else b.settle n t (.error .reset)

/-- A member turns to a ticket. -/
def serveTicket (n : Nat) (t : Ticket) (b : Broker ω) : Option (Broker ω) :=
  match b.phase? t.call with
  | some (.entering _ turn next) =>
    let (answer, b) := b.take n turn
    some ((b.serveNext n).setPhase t.call (.running (next answer)))
  | some (.conversing legs _) =>
    match legs[t.leg]? with
    | some ⟨_, command, .queued⟩ => some (b.beginExchange n t command)
    | _ => none
  | _ => none

/-- The command of a call that has been written: its member, its connection and its deadline. -/
def talking? (t : Ticket) (b : Broker ω) : Option (Nat × Nat × Nat) :=
  match b.phase? t.call with
  | some (.conversing legs _) =>
    match legs[t.leg]? with
    | some ⟨r, _, .talking link deadline⟩ => some (r.number, link, deadline)
    | _ => none
  | _ => none

/-- Whether a member is referred to by the registry, from outside, or by a call that goes on. -/
def isInUse (n : Nat) (b : Broker ω) : Bool :=
  b.registry.any (fun e => e.2.number == n) || b.held.any (fun r => r.number == n) ||
    b.calls.any fun c => c.isActive && c.refs.any fun r => r.number == n

/-- A call leaves every queue. -/
def withdraw (c : Nat) (b : Broker ω) : Broker ω :=
  { b with members := b.members.map fun m =>
      { m with queue := m.queue.filter fun t => t.call ≠ c } }

/-! ## Moves -/

/-- What a move leads to; `none` if it is not possible. -/
def step : Move ω → Broker ω → Option (Broker ω)
  | .start program refs brings, b =>
    some { b with calls := b.calls ++ [⟨.running program, refs, brings⟩] }
  | .run c, b =>
    match b.phase? c with
    | some (.running p) => some (b.stepProgram c p)
    | _ => none
  | .serve n, b =>
    match (b.member n).queue with
    | t :: _ => b.serveTicket n t
    | [] => none
  | .receive c leg, b => do
    let (n, link, _) ← b.talking? ⟨c, leg⟩
    let (outcome, rest) ← (b.link link).receive?
    return (b.changeLink link fun _ => rest).settle n ⟨c, leg⟩ outcome
  | .supersede c leg, b => do
    let (n, _, _) ← b.talking? ⟨c, leg⟩
    let ch ← (b.member n).channel
    if ch.generation = (b.member n).generation then none
    else some (b.conclude n ⟨c, leg⟩ (.error .replaced))
  | .expire c leg, b => do
    let (n, _, deadline) ← b.talking? ⟨c, leg⟩
    if deadline ≤ b.clock then some (b.settle n ⟨c, leg⟩ (.error .timedOut)) else none
  | .hear c, b =>
    match b.phase? c with
    | some (.greeting link _ next) => do
      let (outcome, rest) ← (b.link link).receive?
      return (b.changeLink link fun _ => rest).setPhase c (.running (next outcome))
    | _ => none
  | .giveUp c, b =>
    match b.phase? c with
    | some (.greeting _ deadline next) =>
      if deadline ≤ b.clock then some (b.setPhase c (.running (next (.error .timedOut))))
      else none
    | _ => none
  | .abandon c, b =>
    match b.calls[c]? with
    | some call =>
      if call.isActive && call.brings.isNone then
        some ((b.withdraw c).setPhase c .abandoned)
      else none
    | none => none
  | .accept, b => some { b with links := b.links ++ [.fresh] }
  | .signal link s, b => some (b.changeLink link (Link.arrive s))
  | .release n, b =>
    if (b.member n).channel.isSome && !b.isInUse n then some (b.disconnect n) else none
  | .pass time, b => some { b with clock := b.clock + time }

end Broker

/-! ## Runs -/

/-- A move, with the state in which it was made. -/
structure Deed (ω : Type) where
  before : Broker ω
  move : Move ω

namespace Broker

variable {ω : Type}

/-- What moves lead to: those of `past`, the oldest first, lead from `a` to another state, and
each was allowed after what had happened before it. -/
inductive Run (allowed : List (Deed ω) → Broker ω → Move ω → Prop) (a : Broker ω) :
    List (Deed ω) → Broker ω → Prop where
  | nil : Run allowed a [] a
  | snoc {past : List (Deed ω)} {b c : Broker ω} (m : Move ω) (hr : Run allowed a past b)
      (h : allowed past b m) (hm : b.step m = some c) : Run allowed a (past ++ [⟨b, m⟩]) c

end Broker

end WorkerBroker
