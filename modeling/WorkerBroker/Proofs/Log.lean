import WorkerBroker.Broker.Move
/-!
# What happens on connections

A move of the broker is a step of a call, of a worker or of the clock. What an observer of the
connections sees of it is at most one `Event`: a line is written, an answer arrives, or an exchange
comes to an end, with a reply or without. The greeting of a fresh connection is an exchange too; its
ticket is that of the call.

`log` is what an observer has seen of a run.
-/

namespace WorkerBroker

/-- What can be seen on connections. -/
inductive Event where
  | wrote (ticket : Ticket) (link : Nat) (line : String)
  /-- something that a worker sent has arrived -/
  | answered (link : Nat) (bytes : Bytes)
  | ended (ticket : Ticket) (link : Nat) (outcome : Outcome)

namespace Broker

variable {ω : Type}

/-- The command that is to be written for a ticket. -/
def queued? (t : Ticket) (b : Broker ω) : Option Command :=
  match b.phase? t.call with
  | some (.conversing legs _) =>
    match legs[t.leg]? with
    | some ⟨_, command, .queued⟩ => some command
    | _ => none
  | _ => none

/-- A line is written on a connection, or it turns out to be broken. -/
def writing (t : Ticket) (link : Nat) (line : String) (b : Broker ω) : Event :=
  if (b.link link).isWritable then .wrote t link line else .ended t link (.error .reset)

/-- A member turns to a ticket: its command is written if there is a current connection. -/
def serving (n : Nat) (t : Ticket) (b : Broker ω) : Option Event :=
  match b.queued? t, (b.member n).channel with
  | some command, some ch =>
    if ch.generation = (b.member n).generation then some (b.writing t ch.link command.line)
    else none
  | _, _ => none

/-- What is read on a connection ends an exchange. -/
def hearing (t : Ticket) (link : Nat) (b : Broker ω) : Option Event :=
  (b.link link).receive?.map fun r => .ended t link r.1

end Broker

namespace Deed

variable {ω : Type}

/-- What can be seen of a move. -/
def event? (d : Deed ω) : Option Event :=
  match d.move with
  | .run c =>
    match d.before.phase? c with
    | some (.running (.wait (.greet link) _)) =>
      some (d.before.writing ⟨c, 0⟩ link Command.identify.line)
    | _ => none
  | .serve n =>
    match (d.before.member n).queue with
    | t :: _ => d.before.serving n t
    | [] => none
  | .receive c leg =>
    (d.before.talking? ⟨c, leg⟩).bind fun x => d.before.hearing ⟨c, leg⟩ x.2.1
  | .supersede c leg =>
    (d.before.talking? ⟨c, leg⟩).map fun x => .ended ⟨c, leg⟩ x.2.1 (.error .replaced)
  | .expire c leg =>
    (d.before.talking? ⟨c, leg⟩).map fun x => .ended ⟨c, leg⟩ x.2.1 (.error .timedOut)
  | .hear c =>
    match d.before.phase? c with
    | some (.greeting link _ _) => d.before.hearing ⟨c, 0⟩ link
    | _ => none
  | .giveUp c =>
    match d.before.phase? c with
    | some (.greeting link _ _) => some (.ended ⟨c, 0⟩ link (.error .timedOut))
    | _ => none
  | .signal link (.bytes bytes) =>
    if link < d.before.links.length ∧ (d.before.link link).closed = false ∧
        (d.before.link link).inbox.ending = .stillOpen then some (.answered link bytes)
    else none
  | _ => none

theorem event?_serve {b : Broker ω} {n : Nat} {t : Ticket} {rest : List Ticket}
    (h : (b.member n).queue = t :: rest) : event? ⟨b, .serve n⟩ = b.serving n t := by
  simp only [event?, h]

theorem event?_receive {b : Broker ω} {c leg n l d : Nat}
    (h : b.talking? ⟨c, leg⟩ = some (n, l, d)) :
    event? ⟨b, .receive c leg⟩ = b.hearing ⟨c, leg⟩ l := by
  simp only [event?, h, Option.bind_some]

theorem event?_expire {b : Broker ω} {c leg n l d : Nat}
    (h : b.talking? ⟨c, leg⟩ = some (n, l, d)) :
    event? ⟨b, .expire c leg⟩ = some (.ended ⟨c, leg⟩ l (.error .timedOut)) := by
  simp only [event?, h, Option.map_some]

theorem event?_supersede {b : Broker ω} {c leg n l d : Nat}
    (h : b.talking? ⟨c, leg⟩ = some (n, l, d)) :
    event? ⟨b, .supersede c leg⟩ = some (.ended ⟨c, leg⟩ l (.error .replaced)) := by
  simp only [event?, h, Option.map_some]

end Deed

namespace Broker

variable {ω : Type} {b : Broker ω}

/-- A member that turns to a command with a current connection tries to write it. -/
theorem serving_of_queued {n : Nat} {t : Ticket} {command : Command} {ch : Channel}
    (hq : b.queued? t = some command) (hch : (b.member n).channel = some ch)
    (hg : ch.generation = (b.member n).generation) :
    b.serving n t = some (b.writing t ch.link command.line) := by
  simp only [serving, hq, hch, hg, if_true]

theorem writing_of_not_writable {t : Ticket} {l : Nat} (h : ¬(b.link l).isWritable)
    (line : String) : b.writing t l line = .ended t l (.error .reset) := by
  rw [writing, if_neg h]

/-- Only what can be written is. -/
theorem writing_eq_wrote {t u : Ticket} {l k : Nat} {line line' : String}
    (h : b.writing t l line = .wrote u k line') :
    (b.link l).isWritable ∧ t = u ∧ l = k ∧ line = line' := by
  rw [writing] at h
  split at h
  · cases h
    exact ⟨‹_›, rfl, rfl, rfl⟩
  · cases h

/-- A member writes the command that is queued, on its current connection. -/
theorem serving_eq_wrote {n : Nat} {t u : Ticket} {l : Nat} {line : String}
    (h : b.serving n t = some (.wrote u l line)) :
    t = u ∧ ∃ command, b.queued? t = some command ∧ line = command.line ∧
      (b.member n).channel = some ⟨l, (b.member n).generation⟩ ∧ (b.link l).isWritable := by
  rw [serving] at h
  split at h
  · rename_i command ch hq hch
    split at h
    · rename_i hg
      obtain ⟨hw, rfl, rfl, rfl⟩ := writing_eq_wrote (Option.some.inj h)
      exact ⟨rfl, command, hq, rfl, by rw [hch, ← hg], hw⟩
    · cases h
  · cases h

/-- What is read ends an exchange; nothing is written. -/
theorem hearing_ne_wrote {t u : Ticket} {l k : Nat} {line : String} :
    b.hearing t l ≠ some (.wrote u k line) := by
  intro h
  obtain ⟨r, -, he⟩ := Option.map_eq_some_iff.1 h
  cases he

end Broker

/-- A line is written when a fresh connection is asked who it is, or when a member turns to a
command. -/
theorem Deed.of_wrote {ω : Type} {d : Deed ω} {t : Ticket} {l : Nat} {line : String}
    (h : d.event? = some (.wrote t l line)) :
    (∃ next, d.before.phase? t.call = some (.running (.wait (.greet l) next))) ∨
      ∃ n rest command, d.move = .serve n ∧ (d.before.member n).queue = t :: rest ∧
        d.before.queued? t = some command ∧ line = command.line ∧
        (d.before.member n).channel = some ⟨l, (d.before.member n).generation⟩ := by
  rw [event?] at h
  split at h
  · split at h
    · rename_i c link next hp
      obtain ⟨-, rfl, rfl, -⟩ := Broker.writing_eq_wrote (Option.some.inj h)
      exact .inl ⟨next, hp⟩
    · cases h
  · rename_i n hm
    split at h
    · rename_i u rest hn
      obtain ⟨rfl, command, hq, hline, hch, -⟩ := Broker.serving_eq_wrote h
      exact .inr ⟨n, rest, command, hm, hn, hq, hline, hch⟩
    · cases h
  · obtain ⟨x, -, he⟩ := Option.bind_eq_some_iff.1 h
    exact absurd he Broker.hearing_ne_wrote
  · obtain ⟨x, -, he⟩ := Option.map_eq_some_iff.1 h
    cases he
  · obtain ⟨x, -, he⟩ := Option.map_eq_some_iff.1 h
    cases he
  · split at h
    · exact absurd h Broker.hearing_ne_wrote
    · cases h
  · split at h <;> cases h
  · split at h <;> cases h
  · cases h

/-- What is picked out of a list that has become longer. -/
theorem filterMap_snoc {α β : Type} (f : α → Option β) (xs : List α) (x : α) :
    (xs ++ [x]).filterMap f = xs.filterMap f ++ (f x).toList := by
  rw [List.filterMap_append]
  rcases h : f x with _ | y <;> simp [h]

/-- What could be seen of moves, in order. -/
def log {ω : Type} (past : List (Deed ω)) : List Event :=
  past.filterMap Deed.event?

/-- Whether an exchange on a connection ends without a reply. -/
def Event.fails (l : Nat) : Event → Bool
  | ended _ k (.error _) => k = l
  | _ => false

theorem log_snoc {ω : Type} (past : List (Deed ω)) (d : Deed ω) :
    log (past ++ [d]) = log past ++ d.event?.toList :=
  filterMap_snoc _ past d

end WorkerBroker
