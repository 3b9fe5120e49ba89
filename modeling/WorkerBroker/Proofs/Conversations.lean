import WorkerBroker.Proofs.Services
/-!
# Conversations

A request sends commands at most once, all together, and afterwards it only takes turns on members
(`Program.AsksOnce`). `Conversation` follows a call of this kind. Nothing can be seen of it before
its commands are on their way. Each command has one turn: it is written then if its member has a
current connection that can be written on, and it is over at once if not (`Spoken`). Nothing more
can be seen once all outcomes are there.

`Conversation.step` goes through the moves of the call, and `Service.conversation` is the induction
on runs. What a call comes to is then a matter of its program and of the outcomes alone.
-/

namespace WorkerBroker

/-! ## Programs that send commands once -/

/-- A turn in which no connection is offered. -/
def Wait.IsPlainTurn : Wait → Prop
  | .enter _ turn => turn.link? = none
  | _ => False

namespace Program

variable {ω α : Type}

/-- The program sends nothing and has no connection to place. -/
abbrev Mute (p : Program ω) : Prop :=
  p.Within (fun a => a.link? = none) Wait.IsPlainTurn fun _ => True

/-- The program sends commands at most once, all together, and has no connection to place. -/
def AsksOnce : Program ω → Prop
  | done _ => True
  | act a next => a.link? = none ∧ ∀ x, (next x).AsksOnce
  | wait (.enter r turn) next => (Wait.enter r turn).IsPlainTurn ∧ ∀ x, (next x).AsksOnce
  | wait (.converse _) next => ∀ outcomes, (next outcomes).Mute
  | wait (.greet _) _ => False

theorem Mute.asksOnce {p : Program ω} (h : p.Mute) : p.AsksOnce := by
  induction p with
  | done x => trivial
  | act a next ih => exact ⟨h.1, fun x => ih x (h.2 x)⟩
  | wait w next ih =>
    obtain ⟨hw, hn⟩ := h
    cases w with
    | enter r turn => exact ⟨hw, fun x => ih x (hn x)⟩
    | converse commands => exact hw.elim
    | greet link => exact hw.elim

theorem Mute.bind {p : Program α} {f : α → Program ω} (h : p.Mute) (hf : ∀ x, (f x).Mute) :
    (p.bind f).Mute :=
  Within.bind h fun x _ => hf x

/-- What comes before the commands sends nothing. -/
theorem Mute.bind_asksOnce {p : Program α} {f : α → Program ω} (h : p.Mute)
    (hf : ∀ x, (f x).AsksOnce) : (p.bind f).AsksOnce := by
  induction p with
  | done x => exact hf x
  | act a next ih => exact ⟨h.1, fun x => ih x (h.2 x)⟩
  | wait w next ih =>
    obtain ⟨hw, hn⟩ := h
    cases w with
    | enter r turn => exact ⟨hw, fun x => ih x (hn x)⟩
    | converse commands => exact hw.elim
    | greet link => exact hw.elim

/-- What comes after the commands sends nothing. -/
theorem AsksOnce.bind {p : Program α} {f : α → Program ω} (h : p.AsksOnce)
    (hf : ∀ x, (f x).Mute) : (p.bind f).AsksOnce := by
  induction p with
  | done x => exact (hf x).asksOnce
  | act a next ih => exact ⟨h.1, fun x => ih x (h.2 x)⟩
  | wait w next ih =>
    cases w with
    | enter r turn => exact ⟨h.1, fun x => ih x (h.2 x)⟩
    | converse commands => exact fun outcomes => Mute.bind (h outcomes) hf
    | greet link => exact h.elim

/-- Until the commands are sent, what is left is as before. -/
theorem AsksOnce.leads {p q : Program ω} {steps : List Step} (h : p.AsksOnce)
    (hl : p.Leads steps q) : q.AsksOnce := by
  induction hl with
  | refl p => exact h
  | act _ ih => exact ih (h.2 _)
  | @wait w _ _ _ _ _ ih =>
    cases w with
    | enter r turn => exact ih (h.2 _)
    | converse commands => exact ih (h _).asksOnce
    | greet link => exact h.elim

/-! ### The programs of requests -/

theorem mute_unregisterDead (r : Ref) : (unregisterDead r).Mute := by
  refine ⟨rfl, fun x => ?_⟩
  cases x with
  | true => exact ⟨rfl, fun _ => trivial⟩
  | false => trivial

theorem mute_prune (ps : List Probe) : (prune ps).Mute := by
  induction ps with
  | nil => trivial
  | cons p ps ih =>
    have hrest : ((prune ps).bind fun qs => done (p :: qs)).Mute := ih.bind fun _ => trivial
    simp only [prune]
    split
    · refine (mute_unregisterDead p.1).bind fun x => ?_
      cases x with
      | true => exact ih
      | false => exact hrest
    · exact hrest

theorem mute_roster : roster.Mute := ⟨rfl, fun _ => trivial⟩

theorem mute_primary : Program.primary.Mute :=
  ⟨rfl, fun found => by cases found <;> trivial⟩

theorem mute_secondary (kind : WorkerKind) (id : UInt32) : (secondary kind id).Mute := by
  refine ⟨rfl, fun found => ?_⟩
  cases found with
  | none => trivial
  | some r =>
    change Program.Mute (if _ then _ else _)
    split <;> trivial

theorem mute_afterExit (r : Ref) (answer : Except Failure Json) : (afterExit r answer).Mute := by
  cases answer with
  | ok value => exact ⟨rfl, fun _ => ⟨rfl, fun _ => ⟨rfl, fun _ => trivial⟩⟩⟩
  | error e =>
    simp only [afterExit]
    split
    · exact (mute_unregisterDead r).bind fun _ => trivial
    · trivial

theorem asksOnce_execute (r : Ref) (command : Command) : (execute r command).AsksOnce := by
  unfold execute
  split
  · exact fun outcomes => trivial
  · trivial

theorem asksOnce_exit (r : Ref) : (exit r).AsksOnce :=
  (asksOnce_execute r .exit).bind fun answer => (mute_afterExit r answer).bind fun _ => trivial

theorem asksOnce_sweep (refs : List Ref) : (sweep refs).AsksOnce := fun _ => mute_prune _

theorem asksOnce_listing : listing.AsksOnce :=
  mute_roster.bind_asksOnce fun _ => (asksOnce_sweep _).bind fun _ =>
    mute_roster.bind fun _ => trivial

theorem asksOnce_cpuUsage : cpuUsage.AsksOnce :=
  mute_roster.bind_asksOnce fun _ => (asksOnce_sweep _).bind fun _ => trivial

theorem asksOnce_cpuUnused (layout : List Socket) (master : Option UInt32) :
    (cpuUnused layout master).AsksOnce :=
  asksOnce_cpuUsage.bind fun _ => trivial

end Program

namespace Gateway

open Program

theorem mute_resolve (a : Address) : a.resolve.Mute := by
  cases a with
  | primary => exact mute_primary
  | secondary kind id =>
    simp only [Address.resolve]
    split
    · exact mute_secondary kind _
    · trivial

theorem asksOnce_withMember {a : Address} {f : Ref → Program Response}
    (h : ∀ r, (f r).AsksOnce) : (withMember a f).AsksOnce := by
  refine (mute_resolve a).bind_asksOnce fun found => ?_
  cases found with
  | ok r => exact h r
  | error e => trivial

theorem asksOnce_send (a : Address) (command : WorkerKind → Except Failure Command) :
    (send a command).AsksOnce := by
  refine asksOnce_withMember fun r => ?_
  split
  · exact (asksOnce_execute r _).bind fun _ => trivial
  · trivial

theorem asksOnce_serve (a : Address) (bytes : Bytes) (action : Action) :
    (serve a bytes action).AsksOnce := by
  cases action with
  | display =>
    exact asksOnce_withMember fun r => (asksOnce_execute r _).bind fun _ => trivial
  | exit => exact asksOnce_withMember fun r => (asksOnce_exit r).bind fun _ => trivial
  | clear | resetPatches | stopComponent name =>
    rw [serve]
    exact asksOnce_send a _
  | order o =>
    simp only [serve, carryOut]
    split
    · trivial
    · split
      · trivial
      · split
        · trivial
        · exact asksOnce_send a _

theorem asksOnce_perform (layout : List Socket) (request : Request) (e : Errand) :
    (perform layout request e).AsksOnce := by
  cases e with
  | listing => exact asksOnce_listing.bind fun _ => trivial
  | cpuUsage => exact asksOnce_cpuUsage.bind fun _ => trivial
  | cpuLayout => trivial
  | cpuUnused =>
    simp only [perform]
    split
    · exact (asksOnce_cpuUnused layout _).bind fun _ => trivial
    · trivial
  | worker address action => exact asksOnce_serve address request.body action

/-- A request sends commands at most once. -/
theorem asksOnce_handle (layout : List Socket) (request : Request) :
    (handle layout request).AsksOnce := by
  simp only [handle]
  split
  · trivial
  · split
    · trivial
    · split
      · trivial
      · refine AsksOnce.bind ?_ fun _ => trivial
        simp only [attend]
        split
        · exact asksOnce_perform layout request _
        · trivial

end Gateway

/-! ## What becomes of a command -/

namespace Broker

variable {ω : Type} {b b' : Broker ω} {n l : Nat}

/-- This is the connection of a member, and no other has been announced since. -/
def Current (b : Broker ω) (n l : Nat) : Prop :=
  (b.member n).channel = some ⟨l, (b.member n).generation⟩

instance (b : Broker ω) (n l : Nat) : Decidable (b.Current n l) :=
  inferInstanceAs (Decidable (_ = _))

/-- A command for a member can be written on this connection. -/
def Usable (b : Broker ω) (n l : Nat) : Prop :=
  b.Current n l ∧ (b.link l).isWritable

theorem current_iff :
    b.Current n l ↔
      (b.standing.member n).channel = some ⟨l, (b.standing.member n).generation⟩ := by
  rw [channel_standing, generation_standing]
  rfl

theorem current_congr (h : b'.standing = b.standing) : b'.Current n l ↔ b.Current n l := by
  rw [current_iff, current_iff, h]

/-- Who has lost the connection has none that is current. -/
theorem not_current_of_disconnect {s : Standing} (h : b'.standing = s.disconnect n) (l : Nat) :
    ¬b'.Current n l := by
  rw [current_iff, h, Standing.member_disconnect_self]
  exact nofun

/-- Who gets no reply loses its connection. -/
theorem standing_settle_error (a : Broker ω) (n : Nat) (t : Ticket) (s : Silence) :
    (a.settle n t (.error s)).standing = a.standing.disconnect n := by
  rw [settle, standing_conclude, standing_disconnect]

end Broker

/-- In this move a member turns to the command of a ticket. -/
structure Deed.TurnsTo {ω : Type} (d : Deed ω) (n : Nat) (t : Ticket) (command : Command) :
    Prop where
  move : d.move = .serve n
  front : (d.before.queue n).head? = some t
  queued : d.before.queued? t = some command

theorem Deed.TurnsTo.mover? {ω : Type} {d : Deed ω} {n : Nat} {t : Ticket} {command : Command}
    (h : d.TurnsTo n t command) : d.before.mover? d.move = some t.call := by
  rw [h.move, Broker.mover?, h.front]
  rfl

/-- What has become of a command whose turn came in this state, and what could be seen of it. -/
inductive Spoken {ω : Type} (b : Broker ω) (t : Ticket) (n : Nat) (command : Command) :
    List Event → LegState → Prop where
  /-- there was no current connection -/
  | refused (h : ∀ l, ¬b.Current n l) (s : Silence) :
      Spoken b t n command [] (.ended (.error s))
  /-- the worker had reset the connection -/
  | broken (l : Nat) (h : b.Current n l) (hw : ¬(b.link l).isWritable) :
      Spoken b t n command [.ended t l (.error .reset)] (.ended (.error .reset))
  | talking (l deadline : Nat) (h : b.Usable n l) :
      Spoken b t n command [.wrote t l command.line] (.talking l deadline)
  | ended (l : Nat) (o : Outcome) (h : b.Usable n l) :
      Spoken b t n command [.wrote t l command.line, .ended t l o] (.ended o)

/-- In some move of a call its member was left without a current connection. -/
def Unplugged {ω : Type} (past : List (Deed ω)) (c n : Nat) : Prop :=
  ∃ p e q, past = p ++ e :: q ∧ e.before.mover? e.move = some c ∧
    ∀ b', e.before.step e.move = some b' → ∀ l, ¬b'.Current n l

/-- How far a command is that was sent for a ticket, and what could be seen of it. -/
inductive Exchanged {ω : Type} (past : List (Deed ω)) (t : Ticket) (n : Nat) (command : Command) :
    List Event → LegState → Prop where
  | queued : Exchanged past t n command [] .queued
  | served {p q : List (Deed ω)} {d : Deed ω} {events : List Event} {state : LegState}
      (hd : past = p ++ d :: q) (hturn : d.TurnsTo n t command)
      (h : Spoken d.before t n command events state)
      (hcut : ∀ s, state = .ended (.error s) → Unplugged past t.call n) :
      Exchanged past t n command events state

section

variable {ω : Type} {b b' : Broker ω} {m : Move ω} {c n : Nat} {t : Ticket} {command : Command}
  {past : List (Deed ω)} {events : List Event} {state : LegState}

/-- All that can be seen of a command is seen of its ticket. -/
theorem Spoken.ticket? (h : Spoken b t n command events state) :
    ∀ e ∈ events, e.ticket? = some t := by
  cases h <;> simp [Event.ticket?]

theorem eventsOf_of_ticket {u : Ticket} {events : List Event}
    (h : ∀ e ∈ events, e.ticket? = some t) :
    eventsOf u events = if u = t then events else [] := by
  split
  · rename_i hu
    exact List.filter_eq_self.2 fun e he => by simp [h e he, hu]
  · rename_i hu
    exact List.filter_eq_nil_iff.2 fun e he => by simpa [h e he] using Ne.symm hu

theorem Unplugged.mono (h : Unplugged past c n) (d : Deed ω) : Unplugged (past ++ [d]) c n := by
  obtain ⟨p, e, q, rfl, he⟩ := h
  exact ⟨p, e, q ++ [d], by simp, he⟩

theorem Exchanged.mono (h : Exchanged past t n command events state) (d : Deed ω) :
    Exchanged (past ++ [d]) t n command events state := by
  cases h with
  | queued => exact .queued
  | @served p q d' _ _ hd hturn hs hcut =>
    have hd' : past ++ [d] = p ++ d' :: (q ++ [d]) := by rw [hd, List.append_assoc, List.cons_append]
    exact .served hd' hturn hs fun s hs' => (hcut s hs').mono d

/-- The turn of a command has come. -/
theorem Exchanged.turn (hturn : Deed.TurnsTo ⟨b, m⟩ n t command)
    (hs : Spoken b t n command events state) (hm : b.step m = some b')
    (hc : b.mover? m = some t.call) (hcut : ∀ s, state = .ended (.error s) → ∀ l, ¬b'.Current n l) :
    Exchanged (past ++ [⟨b, m⟩]) t n command events state := by
  refine .served rfl hturn hs fun s hs' => ⟨past, ⟨b, m⟩, [], rfl, hc, fun a ha => ?_⟩
  obtain rfl := Option.some.inj (hm.symm.trans ha)
  exact hcut s hs'

/-- An exchange comes to its end. -/
theorem Exchanged.over {l d : Nat} {o : Outcome}
    (h : Exchanged past t n command events (.talking l d)) (hm : b.step m = some b')
    (hc : b.mover? m = some t.call) (hcut : ∀ s, o = .error s → ∀ l, ¬b'.Current n l) :
    Exchanged (past ++ [⟨b, m⟩]) t n command (events ++ [.ended t l o]) (.ended o) := by
  cases h with
  | @served p q d' _ _ hd hturn hs _ =>
    cases hs with
    | talking _ _ hu =>
      have hd' : past ++ [⟨b, m⟩] = p ++ d' :: (q ++ [⟨b, m⟩]) := by
        rw [hd, List.append_assoc, List.cons_append]
      refine .served hd' hturn (.ended l o hu) fun s hs' => ?_
      refine ⟨past, ⟨b, m⟩, [], rfl, hc, fun a ha => ?_⟩
      obtain rfl := Option.some.inj (hm.symm.trans ha)
      cases hs'
      exact hcut s rfl

end

namespace Broker

variable {ω : Type} {b b' : Broker ω} {m : Move ω} {c n : Nat}

/-- What it costs a member that a command for it has gone on to this state: without a reply it loses
its connection, if that was current; and it loses nothing else. -/
structure Costs (b : Broker ω) (n : Nat) (state : LegState) (b' : Broker ω) : Prop where
  place : b'.standing = b.standing ∨ b'.standing = b.standing.disconnect n
  still : (∀ s, state ≠ .ended (.error s)) → b'.standing = b.standing
  loses : ∀ s, state = .ended (.error s) → ∀ l, b.Current n l →
    b'.standing = b.standing.disconnect n

namespace Costs

variable {state : LegState}

theorem nothing (h : b'.standing = b.standing)
    (hno : ∀ s, state = .ended (.error s) → ∀ l, ¬b.Current n l) : b.Costs n state b' :=
  ⟨.inl h, fun _ => h, fun s hs l hl => absurd hl (hno s hs l)⟩

theorem connection {s : Silence} (h : b'.standing = b.standing.disconnect n) :
    b.Costs n (.ended (.error s)) b' :=
  ⟨.inr h, fun hno => absurd rfl (hno s), fun _ _ _ _ => h⟩

/-- Whoever does not reply has no current connection afterwards. -/
theorem cut (h : b.Costs n state b') {s : Silence} (hs : state = .ended (.error s)) (l : Nat) :
    ¬b'.Current n l := by
  rcases h.place with hst | hst
  · rw [current_congr hst]
    intro hcur
    have hcut : b'.standing = b.standing.disconnect n := h.loses s hs l hcur
    exact not_current_of_disconnect hcut l ((current_congr hst).2 hcur)
  · exact not_current_of_disconnect hst l

end Costs

/-- A member turns to a command. -/
theorem spoken_of_beginExchange {t : Ticket} {rest : List Ticket} {legs : List Leg} {r : Ref}
    {command : Command} {next : List Outcome → Program ω} (hn : (b.member n).queue = t :: rest)
    (hp : b.phase? t.call = some (.conversing legs next))
    (hl : legs[t.leg]? = some ⟨r, command, .queued⟩) :
    ∃ state, Spoken b t n command (Deed.event? ⟨b, .serve n⟩).toList state ∧
      (b.beginExchange n t command).phase? t.call =
        some (phaseOf (legs.modify t.leg fun l => { l with state }) next) ∧
      b.Costs n state (b.beginExchange n t command) ∧
      ((∀ l, ¬b.Current n l) → (b.beginExchange n t command).standing = b.standing) := by
  have hq : b.queued? t = some command := by simp only [queued?, hp, hl]
  rw [Deed.event?_serve hn, beginExchange, serving, hq]
  have hconclude : ∀ o, (b.conclude n t o).standing = b.standing := standing_conclude b n t
  rcases hch : (b.member n).channel with _ | ⟨l, g⟩
  · have hno : ∀ l, ¬b.Current n l := fun l h => by cases hch.symm.trans h
    exact ⟨_, .refused hno .closed, phase?_setLeg_self (a := b.serveNext n) (fun _ => rfl) hp _,
      .nothing (hconclude _) fun _ _ => hno, fun _ => hconclude _⟩
  · by_cases hg : g = (b.member n).generation
    · have hcur : b.Current n l := by rw [Current, hch, hg]
      simp only [hg, ne_eq, not_true_eq_false, if_false, if_true, writing]
      split
      · rename_i hw
        have hstill : ((b.changeLink l (Link.write command.line)).setLeg t
            (.talking l (b.clock + b.timeout))).standing = b.standing := by
          rw [standing_setLeg]
          exact standing_changeLink b l rfl
        exact ⟨_, .talking l (b.clock + b.timeout) ⟨hcur, hw⟩,
          phase?_setLeg_self (a := b.changeLink l _) (fun _ => rfl) hp _,
          .nothing hstill (fun s hs => by cases hs), fun _ => hstill⟩
      · rename_i hw
        exact ⟨_, .broken l hcur hw, phase?_settle_self (fun _ => rfl) hp n _,
          .connection (standing_settle_error b n t _), fun hno => absurd hcur (hno l)⟩
    · have hno : ∀ l, ¬b.Current n l := by
        intro l h
        cases hch.symm.trans h
        exact hg rfl
      simp only [hg, ne_eq, not_false_eq_true, if_true, if_false]
      exact ⟨_, .refused hno .replaced, phase?_setLeg_self (a := b.serveNext n) (fun _ => rfl) hp _,
        .nothing (hconclude _) fun _ _ => hno, fun _ => hconclude _⟩

/-- How one command of a call goes on in a move. -/
structure LegStep (b : Broker ω) (m : Move ω) (b' : Broker ω) (t : Ticket) (leg : Leg)
    (state : LegState) : Prop where
  goes : leg.state = .queued ∧ Deed.TurnsTo ⟨b, m⟩ leg.member.number t leg.command ∧
      Spoken b t leg.member.number leg.command (Deed.event? ⟨b, m⟩).toList state ∨
    ∃ l d o, leg.state = .talking l d ∧ state = .ended o ∧
      Deed.event? ⟨b, m⟩ = some (.ended t l o)
  costs : b.Costs leg.member.number state b'
  /-- a command whose turn comes costs nothing if it cannot be written -/
  spares : leg.state = .queued → (∀ l, ¬b.Current leg.member.number l) → b'.standing = b.standing

/-- All that can be seen of the move is seen of the command's ticket. -/
theorem LegStep.ticket? {t : Ticket} {leg : Leg} {state : LegState}
    (h : LegStep b m b' t leg state) :
    ∀ e ∈ (Deed.event? ⟨b, m⟩).toList, e.ticket? = some t := by
  rcases h.goes with ⟨-, -, hs⟩ | ⟨l, d, o, -, -, he⟩
  · exact hs.ticket?
  · rw [he]
    simp [Event.ticket?]

/-- The command has come as far as the move says. -/
theorem LegStep.exchanged {t : Ticket} {leg : Leg} {state : LegState} {past : List (Deed ω)}
    {events : List Event} (h : LegStep b m b' t leg state) (hm : b.step m = some b')
    (hc : b.mover? m = some t.call)
    (hex : Exchanged past t leg.member.number leg.command events leg.state) :
    Exchanged (past ++ [⟨b, m⟩]) t leg.member.number leg.command
      (events ++ (Deed.event? ⟨b, m⟩).toList) state := by
  rcases h.goes with ⟨hq, hturn, hs⟩ | ⟨l, d, o, hl, rfl, he⟩
  · rw [hq] at hex
    cases hex with
    | queued => exact .turn hturn hs hm hc fun s hs => h.costs.cut hs
    | served _ _ hs' _ => cases hs'
  · rw [hl] at hex
    rw [he]
    exact hex.over hm hc fun s hs => h.costs.cut (congrArg LegState.ended hs)

/-- A call with commands on their way makes a move by one of them, unless it is given up. -/
theorem leg_step {legs : List Leg} {next : List Outcome → Program ω} (ho : b.InOrder)
    (hp : b.phase? c = some (.conversing legs next)) (hc : b.mover? m = some c)
    (hm : b.step m = some b') (ha : m ≠ .abandon c) :
    ∃ i leg state, legs[i]? = some leg ∧
      b'.phase? c = some (phaseOf (legs.modify i fun l => { l with state }) next) ∧
      LegStep b m b' ⟨c, i⟩ leg state := by
  cases makes_of_step hm with
  | starts program refs brings =>
    cases hc
    cases (phase?_length b).symm.trans hp
  | runs hp' =>
    cases hc
    cases hp.symm.trans hp'
  | turns hn hp' =>
    cases hc.symm.trans (mover?_serve hn)
    cases hp.symm.trans hp'
  | @begins n t rest _ r command _ hn hp' hl =>
    cases hc.symm.trans (mover?_serve hn)
    cases hp.symm.trans hp'
    obtain ⟨state, hs, hphase, hcosts, hspares⟩ := spoken_of_beginExchange hn hp hl
    have hq : b.queued? t = some command := by simp only [queued?, hp, hl]
    -- the member that serves the ticket is the one that the command is for
    obtain ⟨_, hl', rfl, -⟩ := ho.waitsAt hn hp
    cases hl.symm.trans hl'
    exact ⟨t.leg, _, state, hl, hphase, .inl ⟨rfl, ⟨rfl, by rw [queue, hn]; rfl, hq⟩, hs⟩, hcosts,
      fun _ => hspares⟩
  | @receives c leg n l d o rest ht hrec =>
    cases hc
    obtain ⟨legs', next', x, hp', hl, rfl, hs⟩ := leg_of_talking? ht
    cases hp.symm.trans hp'
    refine ⟨leg, x, .ended o, hl, phase?_settle_self (t := ⟨c, leg⟩)
      (a := b.changeLink l fun _ => rest) (fun _ => rfl) hp _ o, .inr ⟨l, d, o, hs, rfl, ?_⟩, ?_,
      fun hq => by cases hq.symm.trans hs⟩
    · rw [Deed.event?_receive ht, hearing, hrec, Option.map_some]
    · have hread := standing_changeLink (f := fun _ => rest) b l (Link.closed_of_receive? hrec)
      cases o with
      | error s => exact .connection (by rw [standing_settle_error, hread])
      | ok raw =>
        refine .nothing ?_ fun s hs => by cases hs
        rw [settle, standing_conclude, hread]
  | @supersedes c leg n l d ch ht hch hg =>
    cases hc
    obtain ⟨legs', next', x, hp', hl, rfl, hs⟩ := leg_of_talking? ht
    cases hp.symm.trans hp'
    refine ⟨leg, x, _, hl, phase?_setLeg_self (t := ⟨c, leg⟩) (a := b.serveNext _) (fun _ => rfl) hp
      _, .inr ⟨l, d, _, hs, rfl, Deed.event?_supersede ht⟩,
      .nothing (standing_conclude ..) fun _ _ k hcur => ?_, fun hq => by cases hq.symm.trans hs⟩
    rw [Current, hch] at hcur
    cases hcur
    exact hg rfl
  | @expires c leg n l d ht _ =>
    cases hc
    obtain ⟨legs', next', x, hp', hl, rfl, hs⟩ := leg_of_talking? ht
    cases hp.symm.trans hp'
    exact ⟨leg, x, _, hl, phase?_settle_self (t := ⟨c, leg⟩) (fun _ => rfl) hp _ _,
      .inr ⟨l, d, _, hs, rfl, Deed.event?_expire ht⟩, .connection (standing_settle_error ..),
      fun hq => by cases hq.symm.trans hs⟩
  | hears hp' _ | givesUp hp' _ =>
    cases hc
    cases hp.symm.trans hp'
  | abandons _ _ _ =>
    cases hc
    exact absurd rfl ha
  | accepts | signals _ _ | releases _ _ | passes _ => cases hc

end Broker

/-! ## A call that sends commands once -/

/-- A step in which nothing is said to a worker. -/
def Step.IsMute : Step → Prop
  | .wait (.converse _) _ | .wait (.greet _) _ => False
  | _ => True

/-- Whether nothing can be seen of a call that goes on from this phase. -/
def Phase.IsSilent {ω : Type} : Phase ω → Prop
  | .running (.wait (.greet _) _) | .conversing _ _ | .greeting _ _ _ => False
  | _ => True

/-- How far a call is with a program that sends commands once. -/
inductive Conversation {ω : Type} (P : Program ω) (c : Nat) (past : List (Deed ω)) :
    Phase ω → Prop where
  | before {p : Phase ω} {q : Program ω} {steps : List Step} (hpath : P.Leads steps q)
      (hsteps : ∀ e ∈ steps, e.IsMute ∧ e.Made past c) (hp : p.left? = some q)
      (hstill : ∀ legs next, p ≠ .conversing legs next)
      (hno : ∀ i, eventsOf ⟨c, i⟩ (log past) = []) : Conversation P c past p
  | going {legs : List Leg} {next : List Outcome → Program ω} {steps : List Step}
      (hpath : P.Leads steps (.wait (.converse (legs.map fun l => (l.member, l.command))) next))
      (hsteps : ∀ e ∈ steps, e.IsMute ∧ e.Made past c)
      (h : ∀ (i : Nat) leg, legs[i]? = some leg → Exchanged past ⟨c, i⟩ leg.member.number
        leg.command (eventsOf ⟨c, i⟩ (log past)) leg.state)
      (hno : ∀ i, legs.length ≤ i → eventsOf ⟨c, i⟩ (log past) = []) :
      Conversation P c past (.conversing legs next)
  | answered {p : Phase ω} {q : Program ω} {commands : List (Ref × Command)}
      {next : List Outcome → Program ω} {outcomes : List Outcome} {steps rest : List Step}
      (hpath : P.Leads steps (.wait (.converse commands) next))
      (hsteps : ∀ e ∈ steps, e.IsMute ∧ e.Made past c)
      (h : ∀ (i : Nat) r command, commands[i]? = some (r, command) → ∃ o, outcomes[i]? = some o ∧
        Exchanged past ⟨c, i⟩ r.number command (eventsOf ⟨c, i⟩ (log past)) (.ended o))
      (hno : ∀ i, commands.length ≤ i → eventsOf ⟨c, i⟩ (log past) = [])
      (hrest : (next outcomes).Leads rest q) (hmade : ∀ e ∈ rest, e.IsMute ∧ e.Made past c)
      (hp : p.left? = some q) : Conversation P c past p
  | gone : Conversation P c past .abandoned

namespace Broker

variable {ω : Type} {b b' : Broker ω} {m : Move ω} {c : Nat} {p : Phase ω} {q : Program ω}
  {past : List (Deed ω)}

/-- What is left of a program that sends commands once can be seen while they are on their way. -/
theorem isSilent_of_asksOnce (hp : p.left? = some q) (hq : q.AsksOnce)
    (hstill : ∀ legs next, p ≠ .conversing legs next) : p.IsSilent := by
  cases p with
  | running q' =>
    cases hp
    cases q with
    | wait w next =>
      cases w with
      | greet link => exact hq
      | _ => trivial
    | _ => trivial
  | conversing legs next => exact hstill legs next rfl
  | greeting link d next =>
    cases hp
    exact hq
  | _ => trivial

/-- Nothing can be seen of a call in a silent phase. -/
theorem event?_of_isSilent (hp : b.phase? c = some p) (hc : b.mover? m = some c)
    (hs : p.IsSilent) : Deed.event? ⟨b, m⟩ = none := by
  have htalking : ∀ leg, b.talking? ⟨c, leg⟩ = none := by
    intro leg
    rcases ht : b.talking? ⟨c, leg⟩ with _ | ⟨n, l, d⟩
    · rfl
    · obtain ⟨legs, next, x, hp', -⟩ := leg_of_talking? ht
      cases hp.symm.trans hp'
      exact hs.elim
  cases m with
  | run k =>
    cases hc
    simp only [Deed.event?, hp]
    split
    · rename_i e
      cases e
      exact hs.elim
    · rfl
  | serve n =>
    obtain ⟨t, ht, rfl⟩ := Option.map_eq_some_iff.1 hc
    obtain ⟨rest, hn⟩ : ∃ rest, (b.member n).queue = t :: rest := List.head?_eq_some_iff.1 ht
    rw [Deed.event?_serve hn, serving, queued?, hp]
    cases p with
    | conversing legs next => exact hs.elim
    | _ => rfl
  | receive k leg | supersede k leg | expire k leg =>
    cases hc
    simp only [Deed.event?, htalking]
    rfl
  | hear k | giveUp k =>
    cases hc
    simp only [Deed.event?, hp]
    cases p with
    | greeting link d next => exact hs.elim
    | _ => rfl
  | _ => cases hc <;> rfl

/-- A call that says nothing makes at most one step of its program, or sends its commands, or is
given up. -/
theorem silent_step (hr : AllRead past b) (hp : b.phase? c = some p) (hleft : p.left? = some q)
    (hq : q.AsksOnce) (hstill : ∀ legs next, p ≠ .conversing legs next)
    (hc : b.mover? m = some c) (hm : b.step m = some b') :
    ∃ p', b'.phase? c = some p' ∧
      (p' = .abandoned ∨
        (∃ commands next, q = .wait (.converse commands) next ∧
          p' = phaseOf (commands.map fun (r, command) => ⟨r, command, .queued⟩) next) ∨
        (∀ legs next, p' ≠ .conversing legs next) ∧ ∃ steps q', p'.left? = some q' ∧
          q.Leads steps q' ∧ ∀ e ∈ steps, e.IsMute ∧ e.Made (past ++ [⟨b, m⟩]) c) := by
  obtain ⟨p', refs, hp', ha⟩ := advance_of_mover hm hp hc
  refine ⟨p', hp', ?_⟩
  have hs := isSilent_of_asksOnce hleft hq hstill
  have hleaves := leaves_of_advance hr hp hleft hc ha
  cases ha with
  | leaves => exact .inl rfl
  | converses =>
    cases hleft
    exact .inr (.inl ⟨_, _, rfl, rfl⟩)
  | asks | fails _ | hears _ => exact hs.elim
  | goes _ _ => exact (hstill _ _ rfl).elim
  | finishes | enters => exact .inr (.inr ⟨nofun, [], _, hleft, .refl _, List.forall_mem_nil _⟩)
  | acts | turns =>
    cases hleft
    refine .inr (.inr ⟨nofun, ?_⟩)
    rcases hleaves with ⟨-, hgone⟩ | hsame | ⟨e, q', hq', hpath, hmade⟩
    · cases hgone
    · exact ⟨[], _, hsame, .refl _, List.forall_mem_nil _⟩
    · refine ⟨[e], q', hq', hpath, fun e' he => ?_⟩
      rw [List.mem_singleton.1 he]
      refine ⟨?_, hmade⟩
      cases hpath
      trivial

end Broker

/-! ## What moves do to a conversation -/

namespace Conversation

open Broker

variable {ω : Type} {b b' : Broker ω} {m : Move ω} {c : Nat} {p : Phase ω} {P : Program ω}
  {past : List (Deed ω)}

/-- A call that has just been started has said nothing. -/
theorem start (hno : ∀ i, eventsOf ⟨c, i⟩ (log past) = []) :
    Conversation P c past (.running P) :=
  .before (.refl P) nofun rfl nofun hno

/-- The move of another call cannot be seen of this one. -/
theorem other (h : Conversation P c past p) (hc : b.mover? m ≠ some c) :
    Conversation P c (past ++ [⟨b, m⟩]) p := by
  have hevents : ∀ i, eventsOf ⟨c, i⟩ (log (past ++ [⟨b, m⟩])) = eventsOf ⟨c, i⟩ (log past) :=
    fun i => eventsOf_of_not_mover hc
  have hmono : ∀ {steps : List Step}, (∀ e ∈ steps, e.IsMute ∧ e.Made past c) →
      ∀ e ∈ steps, e.IsMute ∧ e.Made (past ++ [⟨b, m⟩]) c :=
    fun hsteps e he => ⟨(hsteps e he).1, (hsteps e he).2.mono (List.subset_append_left ..)⟩
  cases h with
  | before hpath hsteps hp hstill hno =>
    exact .before hpath (hmono hsteps) hp hstill fun i => (hevents i).trans (hno i)
  | going hpath hsteps h hno =>
    refine .going hpath (hmono hsteps) (fun i leg hl => ?_) fun i hi => (hevents i).trans (hno i hi)
    rw [hevents]
    exact (h i leg hl).mono _
  | answered hpath hsteps h hno hrest hmade hp =>
    refine .answered hpath (hmono hsteps) (fun i r command hi => ?_)
      (fun i hi => (hevents i).trans (hno i hi)) hrest (hmono hmade) hp
    obtain ⟨o, ho, hex⟩ := h i r command hi
    refine ⟨o, ho, ?_⟩
    rw [hevents]
    exact hex.mono _
  | gone => exact .gone

/-- Commands that are all over have their outcomes. -/
theorem of_phaseOf {legs : List Leg} {next : List Outcome → Program ω} {steps : List Step}
    (hpath : P.Leads steps (.wait (.converse (legs.map fun l => (l.member, l.command))) next))
    (hsteps : ∀ e ∈ steps, e.IsMute ∧ e.Made past c)
    (h : ∀ (i : Nat) leg, legs[i]? = some leg → Exchanged past ⟨c, i⟩ leg.member.number leg.command
      (eventsOf ⟨c, i⟩ (log past)) leg.state)
    (hno : ∀ i, legs.length ≤ i → eventsOf ⟨c, i⟩ (log past) = []) :
    Conversation P c past (phaseOf legs next) := by
  rcases ho : legs.mapM Leg.outcome? with _ | outcomes
  · rw [phaseOf, ho]
    exact .going hpath hsteps h hno
  · rw [phaseOf, ho]
    refine .answered hpath hsteps (fun i r command hi => ?_) (by simpa using hno) (.refl _)
      (List.forall_mem_nil _) rfl
    rw [List.getElem?_map, Option.map_eq_some_iff] at hi
    obtain ⟨leg, hl, hleg⟩ := hi
    cases hleg
    obtain ⟨o, hoi, hs⟩ := outcome_of_leg ho hl
    have hex := h i leg hl
    rw [hs] at hex
    exact ⟨o, hoi, hex⟩

/-- The call goes on while its commands are on their way. -/
theorem going_step {legs : List Leg} {next : List Outcome → Program ω} {steps : List Step}
    (hpath : P.Leads steps (.wait (.converse (legs.map fun l => (l.member, l.command))) next))
    (hsteps : ∀ e ∈ steps, e.IsMute ∧ e.Made past c)
    (h : ∀ (i : Nat) leg, legs[i]? = some leg → Exchanged past ⟨c, i⟩ leg.member.number leg.command
      (eventsOf ⟨c, i⟩ (log past)) leg.state)
    (hno : ∀ i, legs.length ≤ i → eventsOf ⟨c, i⟩ (log past) = []) (ho : b.InOrder)
    (hp : b.phase? c = some (.conversing legs next)) (hc : b.mover? m = some c)
    (hm : b.step m = some b') (ha : m ≠ .abandon c) :
    ∃ p', b'.phase? c = some p' ∧ Conversation P c (past ++ [⟨b, m⟩]) p' := by
  obtain ⟨i, leg, state, hl, hp', hstep⟩ := leg_step ho hp hc hm ha
  have hsteps' : ∀ e ∈ steps, e.IsMute ∧ e.Made (past ++ [⟨b, m⟩]) c := fun e he =>
    ⟨(hsteps e he).1, (hsteps e he).2.mono (List.subset_append_left ..)⟩
  have hevents : ∀ j, eventsOf ⟨c, j⟩ (log (past ++ [⟨b, m⟩])) = eventsOf ⟨c, j⟩ (log past) ++
      if j = i then (Deed.event? ⟨b, m⟩).toList else [] := by
    intro j
    rw [eventsOf_snoc, eventsOf_of_ticket hstep.ticket?]
    simp only [Ticket.mk.injEq, true_and]
  refine ⟨_, hp', of_phaseOf (by rwa [commands_modify]) hsteps' (fun j leg' hl' => ?_)
    fun j hj => ?_⟩
  · rw [hevents]
    by_cases hji : j = i
    · subst hji
      rw [List.getElem?_modify_eq, hl] at hl'
      cases hl'
      rw [if_pos rfl]
      exact hstep.exchanged hm hc (h j leg hl)
    · rw [List.getElem?_modify_ne _ _ (Ne.symm hji)] at hl'
      rw [if_neg hji, List.append_nil]
      exact (h j leg' hl').mono _
  · rw [List.length_modify] at hj
    have hji : j ≠ i := by
      rintro rfl
      rw [List.getElem?_eq_none hj] at hl
      cases hl
    rw [hevents, hno j hj, if_neg hji, List.append_nil]

/-- Once all outcomes are there, only turns are left. -/
theorem answered_step {commands : List (Ref × Command)} {next : List Outcome → Program ω}
    {outcomes : List Outcome} {steps rest : List Step} {q : Program ω} (hP : P.AsksOnce)
    (hpath : P.Leads steps (.wait (.converse commands) next))
    (hsteps : ∀ e ∈ steps, e.IsMute ∧ e.Made past c)
    (h : ∀ (i : Nat) r command, commands[i]? = some (r, command) → ∃ o, outcomes[i]? = some o ∧
      Exchanged past ⟨c, i⟩ r.number command (eventsOf ⟨c, i⟩ (log past)) (.ended o))
    (hno : ∀ i, commands.length ≤ i → eventsOf ⟨c, i⟩ (log past) = [])
    (hrest : (next outcomes).Leads rest q) (hmade : ∀ e ∈ rest, e.IsMute ∧ e.Made past c)
    (hleft : p.left? = some q) (hr : AllRead past b) (hp : b.phase? c = some p)
    (hc : b.mover? m = some c) (hm : b.step m = some b') :
    ∃ p', b'.phase? c = some p' ∧ Conversation P c (past ++ [⟨b, m⟩]) p' := by
  have hq : q.Mute := Program.Within.leads (hP.leads hpath outcomes) hrest
  have hstill : ∀ legs next, p ≠ .conversing legs next := by
    rintro legs next rfl
    cases hleft
    exact hq.1
  have he := event?_of_isSilent hp hc (isSilent_of_asksOnce hleft hq.asksOnce hstill)
  have hevents : ∀ i, eventsOf ⟨c, i⟩ (log (past ++ [⟨b, m⟩])) = eventsOf ⟨c, i⟩ (log past) := by
    intro i
    rw [eventsOf_snoc, he]
    exact List.append_nil _
  have hmono : ∀ {steps : List Step}, (∀ e ∈ steps, e.IsMute ∧ e.Made past c) →
      ∀ e ∈ steps, e.IsMute ∧ e.Made (past ++ [⟨b, m⟩]) c :=
    fun hsteps e he => ⟨(hsteps e he).1, (hsteps e he).2.mono (List.subset_append_left ..)⟩
  obtain ⟨p', hp', rfl | ⟨commands', next', rfl, -⟩ | ⟨-, more, q', hleft', hmore, hmade'⟩⟩ :=
    silent_step hr hp hleft hq.asksOnce hstill hc hm
  · exact ⟨_, hp', .gone⟩
  · exact hq.1.elim
  · refine ⟨p', hp', .answered hpath (hmono hsteps) (fun i r command hi => ?_)
      (fun i hi => (hevents i).trans (hno i hi)) (hrest.trans hmore) (fun e he => ?_) hleft'⟩
    · obtain ⟨o, ho, hex⟩ := h i r command hi
      refine ⟨o, ho, ?_⟩
      rw [hevents]
      exact hex.mono _
    · rcases List.mem_append.1 he with he | he
      · exact hmono hmade e he
      · exact hmade' e he

/-- Every move of the call takes the conversation further. -/
theorem step (h : Conversation P c past p) (hP : P.AsksOnce) (ho : b.InOrder)
    (hr : AllRead past b) (hp : b.phase? c = some p) (hc : b.mover? m = some c)
    (hm : b.step m = some b') :
    ∃ p', b'.phase? c = some p' ∧ Conversation P c (past ++ [⟨b, m⟩]) p' := by
  have hmono : ∀ {steps : List Step}, (∀ e ∈ steps, e.IsMute ∧ e.Made past c) →
      ∀ e ∈ steps, e.IsMute ∧ e.Made (past ++ [⟨b, m⟩]) c :=
    fun hsteps e he => ⟨(hsteps e he).1, (hsteps e he).2.mono (List.subset_append_left ..)⟩
  cases h with
  | @before _ q steps hpath hsteps hleft hstill hno =>
    have hq := hP.leads hpath
    have he := event?_of_isSilent hp hc (isSilent_of_asksOnce hleft hq hstill)
    have hno' : ∀ i, eventsOf ⟨c, i⟩ (log (past ++ [⟨b, m⟩])) = [] := by
      intro i
      rw [eventsOf_snoc, hno, he]
      rfl
    obtain ⟨p', hp', rfl | ⟨commands, next, rfl, rfl⟩ | ⟨hstill', more, q', hleft', hmore, hmade⟩⟩ :=
      silent_step hr hp hleft hq hstill hc hm
    · exact ⟨_, hp', .gone⟩
    · refine ⟨_, hp', of_phaseOf ?_ (hmono hsteps) (fun i leg hl => ?_) fun i _ => hno' i⟩
      · rw [List.map_map]
        exact (List.map_id commands).symm ▸ hpath
      · rw [List.getElem?_map, Option.map_eq_some_iff] at hl
        obtain ⟨x, -, rfl⟩ := hl
        rw [hno']
        exact .queued
    · refine ⟨p', hp', .before (hpath.trans hmore) (fun e he => ?_) hleft' hstill' hno'⟩
      rcases List.mem_append.1 he with he | he
      · exact hmono hsteps e he
      · exact hmade e he
  | going hpath hsteps h hno =>
    by_cases ha : m = .abandon c
    · subst ha
      exact ⟨_, phase?_of_abandon hm, .gone⟩
    · exact going_step hpath hsteps h hno ho hp hc hm ha
  | answered hpath hsteps h hno hrest hmade hleft =>
    exact answered_step hP hpath hsteps h hno hrest hmade hleft hr hp hc hm
  | gone => exact ⟨_, abandoned_step hm hp, .gone⟩

end Conversation

/-- In a run of services, a call that sends commands once has not been started, or it is on its way
through its conversation. -/
theorem Service.conversation {asked : Nat → Service} {timeout : Nat} {past : List (Deed Upshot)}
    {b : Broker Upshot} (hr : Broker.Run (fun _ => Starts asked) (Broker.fresh timeout) past b)
    {c : Nat} (hP : (asked c).program.AsksOnce) :
    b.phase? c = none ∧ (∀ i, eventsOf ⟨c, i⟩ (log past) = []) ∨
      ∃ p, b.phase? c = some p ∧ Conversation (asked c).program c past p := by
  induction hr with
  | nil => exact .inl ⟨rfl, fun _ => rfl⟩
  | @snoc past b b' m hr hs hm ih =>
    by_cases hc : b.mover? m = some c
    · rcases ih with ⟨hp, hno⟩ | ⟨p, hp, h⟩
      · -- a call that there is not makes a move only by being started
        obtain ⟨program, refs, brings, rfl⟩ := Broker.start_of_mover hm hp hc
        cases hc
        cases hm
        obtain ⟨-, rfl, -⟩ := hs
        refine .inr ⟨.running _, ?_, .start fun i => ?_⟩
        · rw [Broker.phase?, List.getElem?_concat_length]
          rfl
        · rw [eventsOf_snoc, hno]
          rfl
      · exact .inr (h.step hP (steady hr).1.order hr.allRead hp hc hm)
    · rw [Broker.phase?_step hm hc]
      rcases ih with ⟨hp, hno⟩ | ⟨p, hp, h⟩
      · exact .inl ⟨hp, fun i => (Broker.eventsOf_of_not_mover hc).trans (hno i)⟩
      · exact .inr ⟨p, hp, h.other hc⟩

end WorkerBroker
