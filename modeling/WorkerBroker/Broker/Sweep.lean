import WorkerBroker.Broker.Execute
import WorkerBroker.Lcore.Usage
/-!
# Reads over all members

A sweep asks several members for their status at once. A secondary that did not answer is
unregistered as dead; one that answered with an error stays, and so does the primary in any case.
The listing of the members and the accounting of their lcores are sweeps.
-/

namespace WorkerBroker

/-- What the listing shows of a member; only a secondary has an id there. -/
structure Entry where
  kind : WorkerKind
  clientId : Option UInt32
  deriving DecidableEq, Repr, Inhabited

namespace Entry

/-- The entry of a member. -/
def ofRef (r : Ref) : Entry :=
  ⟨r.kind, if r.kind.isSecondary then some r.id else none⟩

/-- The published text of an entry. -/
def chars (e : Entry) : List Char :=
  objectText (("type", quoted e.kind.name) ::
    e.clientId.toList.map fun id => ("client-id", wordText id))

end Entry

/-- A member with the answer to its status query. -/
abbrev Probe := Ref × Except Failure Json

/-- Whether an answer shows that a secondary is gone. -/
def Probe.isDead (p : Probe) : Bool :=
  match p.2 with
  | .error e => e.isTransport && p.1.kind.isSecondary
  | .ok _ => false

namespace Program

/-- Unregister the dead members; answers the others, one with a new connection among them. -/
def prune : List Probe → Program (List Probe)
  | [] => done []
  | p :: ps => do
    if Probe.isDead p then
      if ← unregisterDead p.1 then prune ps
      else return p :: (← prune ps)
    else return p :: (← prune ps)

/-- Ask members for their status and unregister the dead ones. -/
def sweep (refs : List Ref) : Program (List Probe) := do
  let outcomes ← converse (refs.map fun r => (r, .status))
  prune ((refs.zip outcomes).map fun (r, o) => (r, judge r .status o))

/-- The members that are registered, after the dead ones are gone. -/
def listing : Program (List Entry) := do
  let refs ← roster
  let _ ← sweep (refs.filter fun r => r.kind.isSecondary)
  return (← roster).map Entry.ofRef

/-- What a member claims by the answer to its status query. -/
def claimOf (p : Probe) : Option Usage :=
  match p.2 with
  | .ok status => usageOf p.1.kind p.1.id status
  | .error _ => none

/-- The lcores that each member claims, the primary included. -/
def cpuUsage : Program (List Usage) := do
  let refs ← roster
  return (← sweep refs).filterMap claimOf

/-- The lcores that no member claims. -/
def cpuUnused (layout : List Socket) (master : Option UInt32) : Program (List UnusedLcores) := do
  return unusedLcores layout (← cpuUsage) master

end Program

end WorkerBroker
