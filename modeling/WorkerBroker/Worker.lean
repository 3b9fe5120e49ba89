import WorkerBroker.Failure
/-!
# Kinds of workers

The broker talks to one primary and to any number of secondaries of four kinds. A secondary of
kind `vf` or `mirror` runs components of its own kinds.
-/

namespace WorkerBroker

/-- The role of a worker. -/
inductive WorkerKind where
  | primary
  /-- a forwarder -/
  | nfv
  /-- a classifier and forwarder -/
  | vf
  | mirror
  /-- a packet capture -/
  | pcap
  deriving DecidableEq, Repr, Inhabited

namespace WorkerKind

/-- Every kind, the primary first. -/
def all : List WorkerKind := [primary, nfv, vf, mirror, pcap]

/-- The name of a kind. -/
def name : WorkerKind → String
  | primary => "primary"
  | nfv => "nfv"
  | vf => "vf"
  | mirror => "mirror"
  | pcap => "pcap"

/-- The kind of that name. -/
def ofName? (s : String) : Option WorkerKind :=
  all.find? fun k => k.name = s

/-- The kind of that name, or the failure that names the key. -/
def read (s : String) : Except Failure WorkerKind :=
  match ofName? s with
  | some k => .ok k
  | none => .error (.keyInvalid "process_type" s)

/-- All kinds but the primary. -/
def isSecondary : WorkerKind → Bool
  | primary => false
  | _ => true

theorem mem_all (k : WorkerKind) : k ∈ all := by cases k <;> decide

theorem ofName?_name (k : WorkerKind) : ofName? k.name = some k := by cases k <;> decide

end WorkerKind

/-! ## Components -/

/-- What a component does. -/
inductive ComponentKind where
  | forward
  | merge
  | classifier
  | mirror
  deriving DecidableEq, Repr, Inhabited

namespace ComponentKind

/-- The name of a component kind. -/
def name : ComponentKind → String
  | forward => "forward"
  | merge => "merge"
  | classifier => "classifier"
  | mirror => "mirror"

/-- The component kinds a worker can run. -/
def allowedFor : WorkerKind → List ComponentKind
  | .vf => [forward, merge, classifier]
  | .mirror => [mirror]
  | _ => []

/-- The component kind of that name among those a worker can run. -/
def ofName? (kind : WorkerKind) (s : String) : Option ComponentKind :=
  (allowedFor kind).find? fun c => c.name = s

end ComponentKind

/-! ## Names of workers -/

/-- How a worker is called in messages: the primary by its kind, a secondary also by its id. -/
def workerLabel (kind : WorkerKind) (id : UInt32) : String :=
  match kind with
  | .primary => kind.name
  | _ => kind.name ++ "(" ++ decimal id.toNat ++ ")"

/-- The id of the primary. No secondary has it. -/
def primaryId : UInt32 := 0

end WorkerBroker
