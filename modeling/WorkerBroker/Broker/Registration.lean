import WorkerBroker.Broker.Execute
/-!
# Workers that connect

A connection to the primary's listener is the primary. A connection to the listener of the
secondaries is asked for its kind and id; without a proper answer it is dropped. If a member of
that kind is registered under the id, it gets the connection in the place of its old one.
Otherwise a new member is registered, and one that it displaces is closed. A member that is
retired hands the connection back, and then a new one is registered too.
-/

namespace WorkerBroker

namespace Program

/-- Register a new member, and close the one it displaces. -/
def install (kind : WorkerKind) (id : UInt32) (link : Nat) : Program Unit := do
  match ← enrol kind id link with
  | some displaced => close displaced
  | none => return ()

/-- Give a connection to the member of this kind and id; to a new one if it is handed back. -/
def reconnect (r : Ref) (kind : WorkerKind) (id : UInt32) (link : Nat) : Program Unit := do
  match ← replaceConnection r link with
  | .handedBack => install kind id link
  | .taken | .superseded => return ()

/-- Register the primary by its connection. -/
def registerPrimary (link : Nat) : Program Unit := do
  match ← find primaryId with
  | some r => reconnect r .primary primaryId link
  | none => install .primary primaryId link

/-- Register a secondary that has said who it is. -/
def registerAs (kind : WorkerKind) (id : UInt32) (link : Nat) : Program Unit := do
  match ← find id with
  | some r => if r.kind = kind then reconnect r kind id link else install kind id link
  | none => install kind id link

/-- Who a fresh connection is. -/
def whoAnswered : Outcome → Except Failure (WorkerKind × UInt32)
  | .ok raw => identityOf raw
  | .error s => .error (.noReply "secondary" Command.identify.verb s.reason)

/-- Register a secondary by its connection. -/
def registerSecondary (link : Nat) : Program Unit := do
  match whoAnswered (← greet link) with
  | .ok (kind, id) => registerAs kind id link
  | .error _ => discard link

end Program

end WorkerBroker
