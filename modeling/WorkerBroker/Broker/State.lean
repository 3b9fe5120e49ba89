import WorkerBroker.Broker.Link
/-!
# The state of the broker

A member is a worker that was registered once. It has at most one connection (`Channel`), tagged
with the generation it was announced with; a connection whose generation is not the member's is
about to be replaced. A member serves one ticket at a time, the one at the front of its queue.

Connections, members and calls are kept in lists and known by their numbers. None is ever taken
out of its list, so that a number keeps its meaning.
-/

namespace WorkerBroker

/-- The connection of a member. -/
structure Channel where
  link : Nat
  generation : Nat
  deriving DecidableEq, Repr, Inhabited

/-- A place in a member's queue: a call, and which of its commands if it has several. -/
structure Ticket where
  call : Nat
  leg : Nat
  deriving DecidableEq, Repr, Inhabited

/-- A worker that was registered once. -/
structure Member where
  kind : WorkerKind
  id : UInt32
  /-- how often a connection was announced, or the member shut -/
  generation : Nat
  channel : Option Channel
  /-- it takes no connection any more -/
  retired : Bool
  /-- who is served, and who waits, first come first served -/
  queue : List Ticket
  deriving DecidableEq, Repr, Inhabited

namespace Member

/-- A member that has just been made. -/
def fresh (kind : WorkerKind) (id : UInt32) (link : Nat) : Member :=
  ⟨kind, id, 0, some ⟨link, 0⟩, false, []⟩

/-- What stands for a member that was never made. -/
def nobody : Member := ⟨.primary, primaryId, 0, none, true, []⟩

end Member

/-! ## Calls -/

/-- How far one command of a call is. -/
inductive LegState where
  /-- it waits for its turn on the member -/
  | queued
  /-- it has been written on a connection; the reply may come until the deadline -/
  | talking (link deadline : Nat)
  | ended (outcome : Outcome)

/-- One command of a call. -/
structure Leg where
  member : Ref
  command : Command
  state : LegState

/-- What the command came to, if it is over. -/
def Leg.outcome? (l : Leg) : Option Outcome :=
  match l.state with
  | .ended o => some o
  | _ => none

/-- How far a call is. -/
inductive Phase (ω : Type) where
  | running (program : Program ω)
  /-- it waits for its turn on a member -/
  | entering (member : Ref) (turn : Turn) (next : turn.Answer → Program ω)
  /-- its commands are on their way -/
  | conversing (legs : List Leg) (next : List Outcome → Program ω)
  /-- it has asked a fresh connection who it is -/
  | greeting (link deadline : Nat) (next : Outcome → Program ω)
  | finished (result : ω)
  /-- whoever asked for it has gone away -/
  | abandoned

/-- A call. -/
structure Call (ω : Type) where
  phase : Phase ω
  /-- the members it has come across -/
  refs : List Ref
  /-- the connection it was started for -/
  brings : Option Nat

/-- Whether a call goes on. -/
def Call.isActive {ω : Type} (c : Call ω) : Bool :=
  match c.phase with
  | .finished _ | .abandoned => false
  | _ => true

/-- The result of a call that has one. -/
def Call.result? {ω : Type} (c : Call ω) : Option ω :=
  match c.phase with
  | .finished x => some x
  | _ => none

/-! ## The broker -/

/-- The state of the broker. -/
structure Broker (ω : Type) where
  /-- how long a worker may take to answer -/
  timeout : Nat
  clock : Nat
  /-- who is registered, by id -/
  registry : Table UInt32 Ref
  members : List Member
  links : List Link
  calls : List (Call ω)
  /-- members that are kept in use from outside -/
  held : List Ref

namespace Broker

variable {ω : Type}

/-- A broker without workers. -/
def fresh (timeout : Nat) : Broker ω := ⟨timeout, 0, [], [], [], [], []⟩

/-- The member of that number. -/
def member (n : Nat) (b : Broker ω) : Member :=
  b.members[n]?.getD .nobody

/-- The connection of that number. -/
def link (l : Nat) (b : Broker ω) : Link :=
  b.links[l]?.getD .fresh

/-- Change a member. -/
def changeMember (n : Nat) (f : Member → Member) (b : Broker ω) : Broker ω :=
  { b with members := b.members.modify n f }

/-- Change a connection. -/
def changeLink (l : Nat) (f : Link → Link) (b : Broker ω) : Broker ω :=
  { b with links := b.links.modify l f }

/-- Change the phase of a call. -/
def setPhase (c : Nat) (phase : Phase ω) (b : Broker ω) : Broker ω :=
  { b with calls := b.calls.modify c fun call => { call with phase } }

/-- Note the members that a call comes across. -/
def meet (c : Nat) (refs : List Ref) (b : Broker ω) : Broker ω :=
  { b with calls := b.calls.modify c fun call => { call with refs := refs ++ call.refs } }

/-- How far a call is. -/
def phase? (c : Nat) (b : Broker ω) : Option (Phase ω) :=
  b.calls[c]?.map Call.phase

/-- Close a connection. -/
def hangUp (l : Nat) (b : Broker ω) : Broker ω :=
  b.changeLink l Link.hangUp

/-- Close the connection of a member, if it has one. -/
def disconnect (n : Nat) (b : Broker ω) : Broker ω :=
  match (b.member n).channel with
  | none => b
  | some ch => (b.hangUp ch.link).changeMember n fun m => { m with channel := none }

/-- Take a place in a member's queue. -/
def queueUp (n : Nat) (t : Ticket) (b : Broker ω) : Broker ω :=
  b.changeMember n fun m => { m with queue := m.queue ++ [t] }

/-- The ticket in front has been served. -/
def serveNext (n : Nat) (b : Broker ω) : Broker ω :=
  b.changeMember n fun m => { m with queue := m.queue.tail }

/-! ## Acts -/

/-- Do an act. -/
def act : (a : Act) → Broker ω → a.Answer × Broker ω
  | .find id, b => (Table.find? id b.registry, b)
  | .roster, b => (b.registry.map Prod.snd, b)
  | .enrol kind id link, b =>
    (Table.find? id b.registry,
      { b with
        registry := Table.put id ⟨b.members.length, kind, id⟩ b.registry
        members := b.members ++ [.fresh kind id link] })
  | .reinstate r, b =>
    (Table.find? r.id b.registry, { b with registry := Table.put r.id r b.registry })
  | .strike r, b =>
    if Table.find? r.id b.registry = some r then
      (true, { b with registry := Table.remove r.id b.registry })
    else (false, b)
  | .dismiss kind id, b =>
    match Table.find? id b.registry with
    | some r =>
      if r.kind = kind then (some r, { b with registry := Table.remove id b.registry })
      else (none, b)
    | none => (none, b)
  | .advance r, b =>
    ((b.member r.number).generation + 1,
      b.changeMember r.number fun m => { m with generation := m.generation + 1 })
  | .discard link, b => ((), b.hangUp link)

/-- The members that an act's answer refers to. -/
def refsOf : (a : Act) → a.Answer → List Ref
  | .find _, r | .enrol _ _ _, r | .reinstate _, r | .dismiss _ _, r => Option.toList r
  | .roster, rs => rs
  | .strike _, _ | .advance _, _ | .discard _, _ => []

/-! ## Turns -/

/-- Take a turn on a member. -/
def take (n : Nat) : (t : Turn) → Broker ω → t.Answer × Broker ω
  | .offer generation link, b =>
    if (b.member n).retired then (.handedBack, b)
    else if (b.member n).generation ≠ generation then (.superseded, b.hangUp link)
    else
      (.taken,
        (b.disconnect n).changeMember n fun m => { m with channel := some ⟨link, generation⟩ })
  | .shut, b => ((), (b.disconnect n).changeMember n fun m => { m with retired := true })
  | .retire, b =>
    if (b.member n).channel.isSome then (false, b)
    else (true, b.changeMember n fun m => { m with retired := true })
  | .look, b => ((b.member n).channel.isSome, b)

end Broker

end WorkerBroker
