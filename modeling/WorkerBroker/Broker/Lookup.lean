import WorkerBroker.Broker.Program
/-!
# Finding members

The primary is whoever is registered under its id. A secondary is found by its kind and id: a
member of another kind under the same id is not it, and the primary never is.
-/

namespace WorkerBroker

namespace Program

/-- The primary. -/
def primary : Program (Except Failure Ref) := do
  match ← find primaryId with
  | some r => return .ok r
  | none => return .error (.notFound "primary")

/-- The secondary of a kind and an id. -/
def secondary (kind : WorkerKind) (id : UInt32) : Program (Except Failure Ref) := do
  match ← find id with
  | some r =>
    if r.kind = kind && kind.isSecondary then return .ok r
    else return .error (.notFound ("sec_id " ++ decimal id.toNat))
  | none => return .error (.notFound ("sec_id " ++ decimal id.toNat))

end Program

end WorkerBroker
