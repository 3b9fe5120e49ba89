import WorkerBroker.Broker.Move
/-!
# One order of moves

Which of the possible moves comes next is open. To run the broker one order is picked here: calls
go on first, in the order in which they were started; then exchanges on a connection that is
about to be replaced end; then members turn to the next in their queue; then what is overdue is
given up; last, members that nobody refers to lose their connections. Time passes only when
nothing else can happen.
-/

namespace WorkerBroker

/-- The legs that have been written, each with its deadline. -/
def talkingLegs (legs : List Leg) : List (Nat × Nat) :=
  legs.zipIdx.filterMap fun (l, i) =>
    match l.state with
    | .talking _ deadline => some (i, deadline)
    | _ => none

namespace Phase

variable {ω : Type}

/-- How a call in this phase may go on by itself. -/
def advances (c : Nat) : Phase ω → List (Move ω)
  | .running _ => [.run c]
  | .greeting _ _ _ => [.hear c]
  | .conversing legs _ => (talkingLegs legs).map fun (i, _) => .receive c i
  | _ => []

/-- How the exchanges of a call in this phase may be cut short. -/
def interruptions (c : Nat) : Phase ω → List (Move ω)
  | .conversing legs _ => (talkingLegs legs).map fun (i, _) => .supersede c i
  | _ => []

/-- The moves of a call in this phase whose time has come, or will come. -/
def timers (c : Nat) : Phase ω → List (Nat × Move ω)
  | .greeting _ deadline _ => [(deadline, .giveUp c)]
  | .conversing legs _ => (talkingLegs legs).map fun (i, deadline) => (deadline, .expire c i)
  | _ => []

end Phase

namespace Broker

variable {ω : Type}

/-- Something of each call, in the order of the calls. -/
def perCall {α : Type} (f : Nat → Phase ω → List α) (b : Broker ω) : List α :=
  b.calls.zipIdx.flatMap fun (call, c) => f c call.phase

/-- Something of each member, in the order of the members. -/
def perMember {α : Type} (f : Nat → α) (b : Broker ω) : List α :=
  (List.range b.members.length).map f

/-- The moves whose time has come. -/
def dueTimers (b : Broker ω) : List (Move ω) :=
  ((b.perCall Phase.timers).filter fun t => t.1 ≤ b.clock).map Prod.snd

/-- The moves that need no passing of time, in the order in which they are tried. -/
def candidates (b : Broker ω) : List (Move ω) :=
  b.perCall Phase.advances ++ b.perCall Phase.interruptions ++ b.perMember .serve ++
    b.dueTimers ++ b.perMember .release

/-- The next move that needs no passing of time. -/
def proceed? (b : Broker ω) : Option (Broker ω) :=
  b.candidates.findSome? fun m => b.step m

/-- The earliest deadline. -/
def nextDeadline? (b : Broker ω) : Option Nat :=
  ((b.perCall Phase.timers).map Prod.fst).min?

/-- Let the time until the earliest deadline pass. -/
def elapse? (b : Broker ω) : Option (Broker ω) :=
  b.nextDeadline?.bind fun deadline => b.step (.pass (deadline - b.clock))

/-- The number of calls that go on. -/
def activeCalls (b : Broker ω) : Nat :=
  (b.calls.filter Call.isActive).length

/-- How many moves there can be before only time can help. A call takes a few steps for itself
and a few more for each member, and each call makes one new member at most. -/
def patience (b : Broker ω) : Nat :=
  (b.activeCalls + 1) * (16 + 8 * (b.members.length + b.activeCalls)) + b.members.length

end Broker

end WorkerBroker
