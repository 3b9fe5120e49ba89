import WorkerBroker.Broker.Move
import WorkerBroker.Proofs.Conduct
/-!
# Operations

What can be asked of the broker: workers connect, commands are sent, all members are asked for
their status, a worker is told to end, a member is dropped from the registry, and a member is used
directly by whoever has a handle to it. Each operation is a program of the broker, and
`Operation.obeys` says that it keeps to the discipline of `Proofs.Conduct`.

A run of the broker (`Broker.Run`) starts programs of all kinds. `Operation.Starts` says that it
starts what its calls are asked to do, and `Operation.Admits` when that is possible at all: a handle
must come from somewhere, and a connection that is handed over must not be in use elsewhere.
-/

namespace WorkerBroker

/-- What an operation comes to. -/
inductive Result where
  | done
  | reply (reply : Except Failure Json)
  | entries (entries : List Entry)
  | usages (usages : List Usage)
  | unused (unused : List UnusedLcores)
  | offered (offered : Offered)
  | flag (value : Bool)

/-- Whether it is the reply of a worker that did as it was told. -/
def Result.isValue : Result → Bool
  | reply (.ok _) => true
  | _ => false

theorem Result.eq_of_isValue : ∀ {x : Result}, x.isValue → ∃ value, x = .reply (.ok value)
  | .reply (.ok value), _ => ⟨value, rfl⟩

/-- The value that a worker has replied with, if it did as it was told. -/
def Result.value? : Result → Option Json
  | reply (.ok value) => some value
  | _ => none

theorem Result.eq_of_value? {x : Result} {value : Json} (h : x.value? = some value) :
    x = reply (.ok value) := by
  unfold value? at h
  split at h <;> cases h
  rfl

/-- Something that is asked of the broker. -/
inductive Operation where
  | registerPrimary (link : Nat)
  | registerSecondary (link : Nat)
  | listing
  | cpuUsage
  | cpuUnused (layout : List Socket) (master : Option UInt32)
  | execute (member : Ref) (command : Command)
  | exit (member : Ref)
  /-- drop a member from the registry and leave its connection alone -/
  | terminate (kind : WorkerKind) (id : UInt32)
  | replaceConnection (member : Ref) (link : Nat)
  | close (member : Ref)
  /-- retire a member if it has no connection -/
  | retire (member : Ref)

namespace Operation

/-- What is done for an operation. -/
def program : Operation → Program Result
  | registerPrimary link => do
    Program.registerPrimary link
    return .done
  | registerSecondary link => do
    Program.registerSecondary link
    return .done
  | listing => return .entries (← Program.listing)
  | cpuUsage => return .usages (← Program.cpuUsage)
  | cpuUnused layout master => return .unused (← Program.cpuUnused layout master)
  | execute r c => return .reply (← Program.execute r c)
  | exit r => return .reply (← Program.exit r)
  | terminate kind id => return .flag (← Program.dismiss kind id).isSome
  | replaceConnection r link => return .offered (← Program.replaceConnection r link)
  | close r => do
    Program.close r
    return .done
  | retire r => return .flag (← Program.retire r)

/-- The handles that whoever asks for it must have. -/
def refs : Operation → List Ref
  | execute r _ | exit r | replaceConnection r _ | close r | retire r => [r]
  | _ => []

/-- The connection that is handed over. -/
def brings : Operation → Option Nat
  | registerPrimary link | registerSecondary link | replaceConnection _ link => some link
  | _ => none

/-- What it may do besides seeing to its burden. -/
def licence : Operation → Licence Result
  | exit r => ⟨some r, none, false, Result.isValue⟩
  | close r => ⟨some r, none, true, fun _ => false⟩
  | terminate _ id => ⟨none, some id, false, fun _ => false⟩
  | replaceConnection _ _ | retire _ => ⟨none, none, true, fun _ => false⟩
  | _ => ⟨none, none, false, fun _ => false⟩

/-- What it has to see to from the start. -/
def burden : Operation → Burden
  | registerPrimary link => .carries link (some (.primary, primaryId))
  | registerSecondary link => .carries link none
  | replaceConnection r link => .carries link (some (r.kind, r.id))
  | _ => .nothing

/-- Every operation keeps to the discipline. -/
theorem obeys (op : Operation) : op.program.Obeys op.licence op.refs op.burden := by
  cases op with
  | registerPrimary link => exact Program.obeys_registerPrimary fun _ => .inr (.inl ⟨rfl, rfl⟩)
  | registerSecondary link => exact Program.obeys_registerSecondary fun _ => .inr (.inl ⟨rfl, rfl⟩)
  | listing => exact Program.obeys_listing fun _ _ => .inr (.inl ⟨rfl, rfl⟩)
  | cpuUsage => exact Program.obeys_cpuUsage fun _ _ => .inr (.inl ⟨rfl, rfl⟩)
  | cpuUnused layout master => exact Program.obeys_cpuUnused fun _ _ => .inr (.inl ⟨rfl, rfl⟩)
  | execute r c => exact Program.obeys_execute List.mem_cons_self fun _ => .inr (.inl ⟨rfl, rfl⟩)
  | exit r =>
    exact Program.obeys_exit List.mem_cons_self rfl (fun _ => .inr (.inr ⟨r, rfl, rfl⟩))
      fun _ => .inr (.inl ⟨rfl, rfl⟩)
  | terminate kind id =>
    exact ⟨nofun, fun x _ => ⟨.nothing, .dismiss rfl, .inr (.inl ⟨rfl, rfl⟩)⟩⟩
  | replaceConnection r link =>
    exact Program.obeys_replaceConnection List.mem_cons_self (.inl ⟨rfl, rfl⟩)
      (fun _ _ => .inl rfl) (.inl rfl)
  | close r => exact Program.obeys_close List.mem_cons_self rfl (.inl rfl)
  | retire r =>
    refine ⟨List.mem_cons_self, fun x => ?_⟩
    cases x with
    | true => exact ⟨_, .retire, .inl rfl⟩
    | false => exact ⟨_, .keep, .inl rfl⟩

end Operation

/-! ## When an operation can be started -/

namespace Broker

variable {ω : Type}

/-- A handle comes from the registry or from a call that has come across it. -/
def Knows (b : Broker ω) (r : Ref) : Prop :=
  (∃ e ∈ b.registry, e.2 = r) ∨ ∃ call ∈ b.calls, r ∈ call.refs

/-- A connection that is open and in nobody's hands. -/
def IsFree (b : Broker ω) (l : Nat) : Prop :=
  l < b.links.length ∧ (b.link l).closed = false ∧
    (∀ m ∈ b.members, m.channel.map Channel.link ≠ some l) ∧
    ∀ call ∈ b.calls, call.isActive → call.brings ≠ some l

/-- The question who a fresh connection is comes to its end. -/
def Hears (b : Broker ω) (c link : Nat) (o : Outcome) : Move ω → Prop
  | .hear k => k = c ∧ (∃ deadline next, b.phase? c = some (.greeting link deadline next)) ∧
      ∃ rest, (b.link link).receive? = some (o, rest)
  | .giveUp k => k = c ∧ (∃ deadline next, b.phase? c = some (.greeting link deadline next)) ∧
      o = .error .timedOut
  | .run k => k = c ∧ (∃ next, b.phase? c = some (.running (.wait (.greet link) next))) ∧
      (b.link link).isWritable = false ∧ o = .error .reset
  | _ => False

end Broker

namespace Operation

/-- Whether an operation can be started. -/
def Admits (op : Operation) (b : Broker Result) : Prop :=
  (∀ r ∈ op.refs, b.Knows r) ∧ ∀ l, op.brings = some l → b.IsFree l

/-- Moves that start nothing but what the calls are asked to do, each by its number. -/
def Starts (asked : Nat → Operation) (b : Broker Result) : Move Result → Prop
  | .start program refs brings => (asked b.calls.length).Admits b ∧
      program = (asked b.calls.length).program ∧ refs = (asked b.calls.length).refs ∧
      brings = (asked b.calls.length).brings
  | _ => True

end Operation

end WorkerBroker
