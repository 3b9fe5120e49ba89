import WorkerBroker.Command
import WorkerBroker.Text.Utf8
/-!
# Programs of the broker

What a call does is a tree: at each node it acts on the broker's state or waits, and goes on with
the answer. There are few acts (`Act`), and each is one atomic step: the registry is looked up or
changed, the generation of a member is advanced, a connection is dropped. A call waits (`Wait`)
for its turn on a member, for the replies to commands, or for a fresh connection to say who it
is.

What a program cannot do is as important as what it can. No act reads or changes the connection
of a member; that is done by a `Turn` only, while the member serves nobody else, and by an
exchange of a command and its reply.
-/

namespace WorkerBroker

/-- A handle to a member: its number, and the kind and the id it was enrolled with. -/
structure Ref where
  number : Nat
  kind : WorkerKind
  id : UInt32
  deriving DecidableEq, Repr, Inhabited

/-- How the member is called in messages. -/
def Ref.label (r : Ref) : String :=
  workerLabel r.kind r.id

/-- Why no reply came. -/
inductive Silence where
  /-- there is no connection, or the worker has ended its stream -/
  | closed
  /-- a newer connection is about to take the place of this one -/
  | replaced
  | timedOut
  | reset
  deriving DecidableEq, Repr, Inhabited

/-- The reason as it stands in messages. -/
def Silence.reason : Silence → String
  | closed => "connection closed"
  | replaced => "connection replaced"
  | timedOut => "timed out"
  | reset => "Connection reset by peer (os error 104)"

/-- What an exchange comes to: the bytes of a reply, or none. -/
abbrev Outcome := Except Silence Bytes

/-! ## Effects -/

/-- An atomic act on the state. -/
inductive Act where
  /-- who is registered under an id -/
  | find (id : UInt32)
  /-- everyone who is registered, by ascending id -/
  | roster
  /-- make a new member with a connection and register it; answers whom it displaced -/
  | enrol (kind : WorkerKind) (id : UInt32) (link : Nat)
  /-- register a member that exists; answers whom it displaced -/
  | reinstate (member : Ref)
  /-- take a member out of the registry, if it is still the one registered under its id -/
  | strike (member : Ref)
  /-- take out whoever is registered under an id, if it is of that kind -/
  | dismiss (kind : WorkerKind) (id : UInt32)
  /-- advance the generation of a member; answers the new one -/
  | advance (member : Ref)
  /-- drop a connection that belongs to no member -/
  | discard (link : Nat)
  deriving DecidableEq, Repr

/-- What an act answers. -/
def Act.Answer : Act → Type
  | find _ | enrol _ _ _ | reinstate _ | dismiss _ _ => Option Ref
  | roster => List Ref
  | strike _ => Bool
  | advance _ => Nat
  | discard _ => Unit

/-- What becomes of a connection that is offered to a member. -/
inductive Offered where
  /-- it is the member's connection now -/
  | taken
  /-- a newer one is under way, so it was dropped -/
  | superseded
  /-- the member takes no connection any more -/
  | handedBack
  deriving DecidableEq, Repr, Inhabited

/-- What is done in a turn on a member, while it serves nobody else. -/
inductive Turn where
  /-- install a connection that was announced with a generation -/
  | offer (generation link : Nat)
  /-- retire the member and drop its connection -/
  | shut
  /-- retire the member if it has no connection -/
  | retire
  /-- see whether it has a connection -/
  | look
  deriving DecidableEq, Repr

/-- What a turn answers. -/
def Turn.Answer : Turn → Type
  | offer _ _ => Offered
  | shut => Unit
  | retire | look => Bool

/-- What a program waits for. -/
inductive Wait where
  /-- its turn on a member -/
  | enter (member : Ref) (turn : Turn)
  /-- the replies to one command for each of some members, all at once -/
  | converse (commands : List (Ref × Command))
  /-- what a fresh connection answers when it is asked who it is -/
  | greet (link : Nat)
  deriving DecidableEq, Repr

/-- What a wait ends with. -/
def Wait.Answer : Wait → Type
  | enter _ turn => turn.Answer
  | converse _ => List Outcome
  | greet _ => Outcome

/-! ## Programs -/

/-- A program with a result. -/
inductive Program (α : Type) where
  | done (result : α)
  | act (a : Act) (next : a.Answer → Program α)
  | wait (w : Wait) (next : w.Answer → Program α)

namespace Program

variable {α β γ : Type}

/-- One program after the other. -/
protected def bind : Program α → (α → Program β) → Program β
  | done x, f => f x
  | act a next, f => act a fun x => (next x).bind f
  | wait w next, f => wait w fun x => (next x).bind f

instance : Monad Program where
  pure := done
  bind := Program.bind

@[simp] theorem pure_def (x : α) : (pure x : Program α) = done x := rfl

@[simp] theorem bind_def (p : Program α) (f : α → Program β) : p >>= f = p.bind f := rfl

@[simp] theorem done_bind (x : α) (f : α → Program β) : (done x).bind f = f x := rfl

@[simp] theorem act_bind (a : Act) (next : a.Answer → Program α) (f : α → Program β) :
    (act a next).bind f = act a fun x => (next x).bind f := rfl

@[simp] theorem wait_bind (w : Wait) (next : w.Answer → Program α) (f : α → Program β) :
    (wait w next).bind f = wait w fun x => (next x).bind f := rfl

theorem bind_assoc (p : Program α) (f : α → Program β) (g : β → Program γ) :
    (p.bind f).bind g = p.bind fun x => (f x).bind g := by
  induction p with
  | done x => rfl
  | act a next ih => exact congrArg (act a) (funext ih)
  | wait w next ih => exact congrArg (wait w) (funext ih)

/-- Do one act. -/
def perform (a : Act) : Program a.Answer := act a done

/-- Wait for one thing. -/
def await (w : Wait) : Program w.Answer := wait w done

/-! ### One name for each effect -/

/-- Who is registered under an id. -/
def find (id : UInt32) : Program (Option Ref) := perform (.find id)

/-- Everyone who is registered, by ascending id. -/
def roster : Program (List Ref) := perform .roster

/-- Register a new member with a connection. -/
def enrol (kind : WorkerKind) (id : UInt32) (link : Nat) : Program (Option Ref) :=
  perform (.enrol kind id link)

/-- Register a member that exists. -/
def reinstate (r : Ref) : Program (Option Ref) := perform (.reinstate r)

/-- Take a member out of the registry. -/
def strike (r : Ref) : Program Bool := perform (.strike r)

/-- Take out whoever is registered under an id. -/
def dismiss (kind : WorkerKind) (id : UInt32) : Program (Option Ref) :=
  perform (.dismiss kind id)

/-- Advance the generation of a member. -/
def advance (r : Ref) : Program Nat := perform (.advance r)

/-- Drop a connection. -/
def discard (link : Nat) : Program Unit := perform (.discard link)

/-- Take a turn on a member. -/
def enter (r : Ref) (t : Turn) : Program t.Answer := await (.enter r t)

/-- Install a connection that was announced. -/
def offer (r : Ref) (generation link : Nat) : Program Offered :=
  enter r (.offer generation link)

/-- Retire a member and drop its connection. -/
def shut (r : Ref) : Program Unit := enter r .shut

/-- Retire a member if it has no connection. -/
def retire (r : Ref) : Program Bool := enter r .retire

/-- Whether a member has a connection. -/
def isConnected (r : Ref) : Program Bool := enter r .look

/-- Send one command for each of some members and wait until each has come to an end. -/
def converse (commands : List (Ref × Command)) : Program (List Outcome) :=
  await (.converse commands)

/-- Ask a fresh connection who it is. -/
def greet (link : Nat) : Program Outcome := await (.greet link)

end Program

end WorkerBroker
