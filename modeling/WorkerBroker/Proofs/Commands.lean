import WorkerBroker.Proofs.Orderly
import WorkerBroker.Proofs.Script
/-!
# Commands and their replies

A call that sends one command is followed from its start to its result (`Told`): its command is
written at most once, and what the call comes to is made from what was read then. With the order of
the exchanges on each connection (`Proofs.Orderly`) this gives `Broker.faithful_of_diligent`: a
command gets the answer that its worker gave to that very command.
-/

namespace WorkerBroker

/-- What can be seen of the exchanges of one ticket. -/
def eventsOf (t : Ticket) (log : List Event) : List Event :=
  log.filter fun e => e.ticket? = some t

theorem eventsOf_append (t : Ticket) (xs ys : List Event) :
    eventsOf t (xs ++ ys) = eventsOf t xs ++ eventsOf t ys :=
  List.filter_append ..

theorem eventsOf_snoc {ω : Type} (t : Ticket) (past : List (Deed ω)) (d : Deed ω) :
    eventsOf t (log (past ++ [d])) = eventsOf t (log past) ++ eventsOf t d.event?.toList := by
  rw [log_snoc, eventsOf_append]

/-! ## Whose move it is -/

/-- Whether a call in this phase waits for somebody else. -/
def Phase.IsWaiting {ω : Type} : Phase ω → Prop
  | .entering _ _ _ | .conversing _ _ | .greeting _ _ _ => True
  | _ => False

namespace Broker

variable {ω : Type} {b b' : Broker ω} {m : Move ω} {c : Nat}

/-- The call that a move is a step of. -/
def mover? (b : Broker ω) : Move ω → Option Nat
  | .start _ _ _ => some b.calls.length
  | .run c | .receive c _ | .supersede c _ | .expire c _ | .hear c | .giveUp c | .abandon c =>
    some c
  | .serve n => (b.queue n).head?.map Ticket.call
  | .accept | .signal _ _ | .release _ | .pass _ => none

theorem phase?_setLeg_ne (b : Broker ω) {t : Ticket} (state : LegState) (h : c ≠ t.call) :
    (b.setLeg t state).phase? c = b.phase? c := by
  unfold setLeg
  split
  · exact phase?_setPhase_ne b _ h
  · rfl

theorem phase?_settle_ne (b : Broker ω) {t : Ticket} (n : Nat) (o : Outcome) (h : c ≠ t.call) :
    (b.settle n t o).phase? c = b.phase? c := by
  cases o with
  | ok raw => exact phase?_setLeg_ne _ _ h
  | error s => exact (phase?_setLeg_ne _ _ h).trans (b.phase?_disconnect n c)

theorem phase?_beginExchange_ne (b : Broker ω) {t : Ticket} (n : Nat) (command : Command)
    (h : c ≠ t.call) : (b.beginExchange n t command).phase? c = b.phase? c := by
  unfold beginExchange
  split
  · exact phase?_setLeg_ne _ _ h
  · split
    · exact phase?_setLeg_ne _ _ h
    · split
      · exact phase?_setLeg_ne _ _ h
      · exact phase?_settle_ne _ _ _ h

theorem phase?_beginWait_ne (b : Broker ω) {k : Nat} (w : Wait) (next : w.Answer → Program ω)
    (h : c ≠ k) : (b.beginWait k w next).phase? c = b.phase? c := by
  cases w with
  | enter r turn => exact phase?_setPhase_ne _ _ h
  | converse commands => exact (phase?_setPhase_ne _ _ h).trans (phase?_queueLegs ..)
  | greet l =>
    simp only [beginWait]
    split <;> exact phase?_setPhase_ne _ _ h

/-- A member serves the call in front of its queue. -/
theorem mover?_serve {n : Nat} {t : Ticket} {rest : List Ticket}
    (hn : (b.member n).queue = t :: rest) : b.mover? (.serve n) = some t.call := by
  simp only [mover?, queue, hn, List.head?_cons, Option.map_some]

/-- Other calls stay where they are. -/
theorem phase?_step (hm : b.step m = some b') (h : b.mover? m ≠ some c) :
    b'.phase? c = b.phase? c := by
  have hne : ∀ {k}, b.mover? m = some k → c ≠ k := by
    rintro k hk rfl
    exact h hk
  cases makes_of_step hm with
  | starts program refs brings =>
    rw [phase?, phase?, getElem?_concat_ne _ _ (hne rfl)]
  | @runs k p hp =>
    have hc : c ≠ k := hne rfl
    cases p with
    | done x => exact phase?_setPhase_ne _ _ hc
    | act a next =>
      refine (phase?_setPhase_ne _ _ hc).trans ?_
      exact (phase?_meet ..).trans (b.phase?_act a c)
    | wait w next => exact phase?_beginWait_ne b w next hc
  | turns hn _ => exact (phase?_setPhase_ne _ _ (hne (mover?_serve hn))).trans (b.phase?_take _ _ c)
  | begins hn _ _ => exact phase?_beginExchange_ne b _ _ (hne (mover?_serve hn))
  | receives _ _ => exact phase?_settle_ne _ _ _ (hne rfl)
  | supersedes _ _ _ => exact phase?_setLeg_ne _ _ (hne rfl)
  | expires _ _ => exact phase?_settle_ne _ _ _ (hne rfl)
  | hears _ _ => exact phase?_setPhase_ne _ _ (hne rfl)
  | givesUp _ _ => exact phase?_setPhase_ne _ _ (hne rfl)
  | abandons _ _ _ => exact phase?_setPhase_ne _ _ (hne rfl)
  | accepts | signals _ _ | passes _ => rfl
  | @releases n _ _ => exact b.phase?_disconnect n c

/-- What can be seen of a ticket is a move of its call. -/
theorem mover?_of_ticket {e : Event} {t : Ticket} (he : Deed.event? ⟨b, m⟩ = some e)
    (ht : e.ticket? = some t) : b.mover? m = some t.call := by
  have hwriting : ∀ {u : Ticket} {l : Nat} {line : String}, b.writing u l line = e → u = t := by
    intro u l line h
    rw [writing] at h
    split at h <;> subst h <;> exact Option.some.inj ht
  have hhearing : ∀ {u : Ticket} {l : Nat}, b.hearing u l = some e → u = t := by
    intro u l h
    obtain ⟨r, -, rfl⟩ := Option.map_eq_some_iff.1 h
    exact Option.some.inj ht
  cases m with
  | run c =>
    simp only [Deed.event?] at he
    split at he
    · rw [← hwriting (Option.some.inj he)]
      rfl
    · cases he
  | serve n =>
    simp only [Deed.event?] at he
    split at he
    · rename_i u rest hn
      simp only [serving] at he
      split at he
      · split at he
        · rw [← hwriting (Option.some.inj he)]
          simp only [mover?, queue, hn, List.head?_cons, Option.map_some]
        · cases he
      · cases he
    · cases he
  | receive c leg =>
    obtain ⟨x, -, hx⟩ := Option.bind_eq_some_iff.1 he
    rw [← hhearing hx]
    rfl
  | supersede c leg | expire c leg =>
    obtain ⟨x, -, rfl⟩ := Option.map_eq_some_iff.1 he
    cases ht
    rfl
  | hear c =>
    simp only [Deed.event?] at he
    split at he
    · rw [← hhearing he]
      rfl
    · cases he
  | giveUp c =>
    simp only [Deed.event?] at he
    split at he <;> cases he
    cases ht
    rfl
  | signal l s =>
    cases s with
    | bytes bytes =>
      simp only [Deed.event?] at he
      split at he <;> cases he
      cases ht
    | ended | reset => cases he
  | _ => cases he

/-- Nothing can be seen of a ticket in the moves of other calls. -/
theorem eventsOf_of_not_mover {t : Ticket} {past : List (Deed ω)} (h : b.mover? m ≠ some t.call) :
    eventsOf t (log (past ++ [⟨b, m⟩])) = eventsOf t (log past) := by
  rw [eventsOf_snoc]
  rcases he : Deed.event? ⟨b, m⟩ with _ | e
  · exact List.append_nil _
  · have ht : e.ticket? ≠ some t := fun ht => h (mover?_of_ticket he ht)
    simp [eventsOf, ht]

/-! ## A call with commands on their way -/

/-- How a command goes on, and what can be seen of it. -/
inductive Goes (t : Ticket) (command : Command) : LegState → Option Event → LegState → Prop where
  /-- there was no current connection to write it on -/
  | refused (s : Silence) : Goes t command .queued none (.ended (.error s))
  | broken (l : Nat) (s : Silence) :
      Goes t command .queued (some (.ended t l (.error s))) (.ended (.error s))
  | wrote (l d : Nat) : Goes t command .queued (some (.wrote t l command.line)) (.talking l d)
  | ended (l d : Nat) (o : Outcome) : Goes t command (.talking l d) (some (.ended t l o)) (.ended o)

theorem phase?_setLeg_self {a : Broker ω} {t : Ticket} {legs : List Leg}
    {next : List Outcome → Program ω} (ha : ∀ k, a.phase? k = b.phase? k)
    (hp : b.phase? t.call = some (.conversing legs next)) (state : LegState) :
    (a.setLeg t state).phase? t.call =
      some (phaseOf (legs.modify t.leg fun l => { l with state }) next) := by
  have hp' := (ha t.call).trans hp
  rw [setLeg, hp']
  exact phase?_setPhase_self hp'

theorem phase?_settle_self {a : Broker ω} {t : Ticket} {legs : List Leg}
    {next : List Outcome → Program ω} (ha : ∀ k, a.phase? k = b.phase? k)
    (hp : b.phase? t.call = some (.conversing legs next)) (n : Nat) (o : Outcome) :
    (a.settle n t o).phase? t.call =
      some (phaseOf (legs.modify t.leg fun l => { l with state := .ended o }) next) := by
  cases o with
  | ok raw => exact phase?_setLeg_self (a := a.serveNext n) ha hp _
  | error s =>
    exact phase?_setLeg_self (a := (a.disconnect n).serveNext n)
      (fun k => (a.phase?_disconnect n k).trans (ha k)) hp _

/-- A command whose turn it is goes on. -/
theorem goes_of_beginExchange {n : Nat} {t : Ticket} {rest : List Ticket} {legs : List Leg}
    {r : Ref} {command : Command} {next : List Outcome → Program ω}
    (hn : (b.member n).queue = t :: rest) (hp : b.phase? t.call = some (.conversing legs next))
    (hl : legs[t.leg]? = some ⟨r, command, .queued⟩) :
    ∃ state, Goes t command .queued (Deed.event? ⟨b, .serve n⟩) state ∧
      (b.beginExchange n t command).phase? t.call =
        some (phaseOf (legs.modify t.leg fun l => { l with state }) next) := by
  have hq : b.queued? t = some command := by simp only [queued?, hp, hl]
  rw [Deed.event?_serve hn, beginExchange, serving, hq]
  rcases (b.member n).channel with _ | ⟨l, g⟩
  · exact ⟨_, .refused .closed, phase?_setLeg_self (a := b.serveNext n) (fun _ => rfl) hp _⟩
  · by_cases hg : g = (b.member n).generation
    · simp only [hg, ne_eq, not_true_eq_false, if_false, if_true, writing]
      split
      · exact ⟨_, .wrote l _, phase?_setLeg_self (a := b.changeLink l _) (fun _ => rfl) hp _⟩
      · exact ⟨_, .broken l .reset, phase?_settle_self (fun _ => rfl) hp n _⟩
    · simp only [hg, ne_eq, not_false_eq_true, if_true, if_false]
      exact ⟨_, .refused .replaced, phase?_setLeg_self (a := b.serveNext n) (fun _ => rfl) hp _⟩

theorem leg_of_talking {c leg n l d : Nat} {legs : List Leg} {next : List Outcome → Program ω}
    (h : b.talking? ⟨c, leg⟩ = some (n, l, d)) (hp : b.phase? c = some (.conversing legs next)) :
    ∃ x, legs[leg]? = some x ∧ x.state = .talking l d := by
  obtain ⟨legs', next', x, hp', hl, -, hs⟩ := leg_of_talking? h
  cases hp.symm.trans hp'
  exact ⟨x, hl, hs⟩

/-- A call with commands on their way makes a move only by one of them. -/
theorem step_of_conversing {legs : List Leg} {next : List Outcome → Program ω}
    (hp : b.phase? c = some (.conversing legs next)) (hc : b.mover? m = some c)
    (hm : b.step m = some b') (ha : ∀ c, m ≠ .abandon c) :
    ∃ i leg state, legs[i]? = some leg ∧
      Goes ⟨c, i⟩ leg.command leg.state (Deed.event? ⟨b, m⟩) state ∧
      b'.phase? c = some (phaseOf (legs.modify i fun l => { l with state }) next) := by
  cases makes_of_step hm with
  | starts program refs brings =>
    cases hc
    rw [phase?, List.getElem?_eq_none (Nat.le_refl _)] at hp
    cases hp
  | runs hp' =>
    cases hc
    cases hp.symm.trans hp'
  | turns hn hp' =>
    cases hc.symm.trans (mover?_serve hn)
    cases hp.symm.trans hp'
  | @begins n t _ _ r command _ hn hp' hl =>
    cases hc.symm.trans (mover?_serve hn)
    cases hp.symm.trans hp'
    obtain ⟨state, hg, hphase⟩ := goes_of_beginExchange hn hp hl
    exact ⟨t.leg, _, state, hl, hg, hphase⟩
  | @receives c leg n l d o rest ht hrec =>
    cases hc
    obtain ⟨x, hl, hs⟩ := leg_of_talking ht hp
    refine ⟨leg, x, .ended o, hl, ?_, ?_⟩
    · rw [Deed.event?_receive ht, hearing, hrec, Option.map_some, hs]
      exact .ended l d o
    · exact phase?_settle_self (t := ⟨c, leg⟩) (a := b.changeLink l fun _ => rest) (fun _ => rfl) hp
        n o
  | @supersedes c leg n l d _ ht _ _ =>
    cases hc
    obtain ⟨x, hl, hs⟩ := leg_of_talking ht hp
    refine ⟨leg, x, _, hl, ?_, phase?_setLeg_self (t := ⟨c, leg⟩) (a := b.serveNext n)
      (fun _ => rfl) hp _⟩
    rw [Deed.event?_supersede ht, hs]
    exact .ended l d _
  | @expires c leg n l d ht _ =>
    cases hc
    obtain ⟨x, hl, hs⟩ := leg_of_talking ht hp
    refine ⟨leg, x, _, hl, ?_, phase?_settle_self (t := ⟨c, leg⟩) (fun _ => rfl) hp n _⟩
    rw [Deed.event?_expire ht, hs]
    exact .ended l d _
  | hears hp' _ | givesUp hp' _ =>
    cases hc
    cases hp.symm.trans hp'
  | abandons _ _ _ => exact absurd rfl (ha _)
  | accepts | signals _ _ | releases _ _ | passes _ => cases hc

/-- A call that waits for nothing starts, or makes its next step if it has one. -/
theorem step_of_not_waiting (h : ∀ p, b.phase? c = some p → ¬p.IsWaiting)
    (hc : b.mover? m = some c) (hm : b.step m = some b') (ha : ∀ c, m ≠ .abandon c) :
    (∃ program refs brings, m = .start program refs brings) ∨
      m = .run c ∧ ∃ q, b.phase? c = some (.running q) ∧ b' = b.stepProgram c q := by
  cases makes_of_step hm with
  | starts program refs brings => exact .inl ⟨program, refs, brings, rfl⟩
  | @runs k q hp =>
    cases hc
    exact .inr ⟨rfl, q, hp, rfl⟩
  | turns hn hp =>
    cases hc.symm.trans (mover?_serve hn)
    exact (h _ hp trivial).elim
  | begins hn hp _ =>
    cases hc.symm.trans (mover?_serve hn)
    exact (h _ hp trivial).elim
  | receives ht _ | supersedes ht _ _ | expires ht _ =>
    cases hc
    obtain ⟨legs, next, leg, hp, -⟩ := leg_of_talking? ht
    exact (h _ hp trivial).elim
  | hears hp _ | givesUp hp _ =>
    cases hc
    exact (h _ hp trivial).elim
  | abandons _ _ _ => exact absurd rfl (ha _)
  | accepts | signals _ _ | releases _ _ | passes _ => cases hc

theorem phase?_length (b : Broker ω) : b.phase? b.calls.length = none := by
  rw [phase?, List.getElem?_eq_none (Nat.le_refl _)]
  rfl

/-- A call that goes on by itself makes its next step. -/
theorem step_of_running {p : Program ω} (hp : b.phase? c = some (.running p))
    (hc : b.mover? m = some c) (hm : b.step m = some b') (ha : ∀ c, m ≠ .abandon c) :
    m = .run c ∧ b' = b.stepProgram c p := by
  have h : ∀ p', b.phase? c = some p' → ¬p'.IsWaiting := by
    intro p' hp'
    cases hp.symm.trans hp'
    exact id
  rcases step_of_not_waiting h hc hm ha with ⟨program, refs, brings, rfl⟩ | ⟨rfl, q, hq, rfl⟩
  · cases hc
    cases (phase?_length b).symm.trans hp
  · cases hp.symm.trans hq
    exact ⟨rfl, rfl⟩

/-- A call that is over makes no move. -/
theorem not_mover_of_finished {x : ω} (hp : b.phase? c = some (.finished x))
    (hm : b.step m = some b') (ha : ∀ c, m ≠ .abandon c) : b.mover? m ≠ some c := by
  intro hc
  have h : ∀ p', b.phase? c = some p' → ¬p'.IsWaiting := by
    intro p' hp'
    cases hp.symm.trans hp'
    exact id
  rcases step_of_not_waiting h hc hm ha with ⟨program, refs, brings, rfl⟩ | ⟨rfl, q, hq, rfl⟩
  · cases hc
    cases (phase?_length b).symm.trans hp
  · cases hp.symm.trans hq

end Broker

/-! ## A call that sends one command -/

/-- Whether a result was made from a reply: a value, or an error that the worker reported. -/
def IsAnswer : Except Failure Json → Prop
  | .ok _ | .error (.rejected _ _) => True
  | .error _ => False

/-- What is left of a command once its exchange is over. -/
def afterCommand (r : Ref) (command : Command) (outcomes : List Outcome) : Program Result :=
  .done (.reply (Program.judge r command (outcomes.headD (.error .closed))))

/-- How far the call of a command is, and what could be seen of it. -/
inductive Told (r : Ref) (command : Command) (t : Ticket) : List Event → Phase Result → Prop where
  | begun : Told r command t []
      (.running (.wait (.converse [(r, command)]) (afterCommand r command)))
  | queued : Told r command t []
      (.conversing [⟨r, command, .queued⟩] (afterCommand r command))
  | talking (l d : Nat) : Told r command t [.wrote t l command.line]
      (.conversing [⟨r, command, .talking l d⟩] (afterCommand r command))
  | ended {events : List Event} {p : Phase Result} (x : Except Failure Json)
      (hp : p = .running (.done (.reply x)) ∨ p = .finished (.reply x))
      (hx : IsAnswer x → ∃ l raw,
        events = [.wrote t l command.line, .ended t l (.ok raw)] ∧ x = decodeReply raw) :
      Told r command t events p

open Broker

/-- Without a reply there is no answer. -/
theorem not_isAnswer_judge (r : Ref) (command : Command) (s : Silence) :
    ¬IsAnswer (Program.judge r command (.error s)) := id

/-- The call of a command begins by waiting for the reply, unless the worker does not know the
command. -/
theorem told_program (r : Ref) (command : Command) (t : Ticket) :
    Told r command t [] (.running (Operation.execute r command).program) := by
  by_cases h : command.supportedBy r.kind
  · have hp : (Operation.execute r command).program =
        .wait (.converse [(r, command)]) (afterCommand r command) := by
      simp only [Operation.program, Program.execute, if_pos h]
      rfl
    rw [hp]
    exact .begun
  · have hp : (Operation.execute r command).program =
        .done (.reply (.error (.unsupported r.label command.verb))) := by
      simp only [Operation.program, Program.execute, if_neg h]
      rfl
    rw [hp]
    exact .ended _ (.inl rfl) False.elim

/-- The only command of the call goes on. -/
theorem told_goes {r : Ref} {command : Command} {t : Ticket} {state state' : LegState}
    {events : List Event} {e : Option Event} (hg : Goes t command state e state')
    (h : Told r command t events (.conversing [⟨r, command, state⟩] (afterCommand r command))) :
    Told r command t (events ++ e.toList)
      (phaseOf [⟨r, command, state'⟩] (afterCommand r command)) := by
  have hover : ∀ {events : List Event} (s : Silence), Told r command t events
      (phaseOf [⟨r, command, .ended (.error s)⟩] (afterCommand r command)) :=
    fun s => .ended _ (.inl rfl) fun hx => absurd hx (not_isAnswer_judge r command s)
  cases h with
  | queued =>
    cases hg with
    | refused s => exact hover s
    | broken l s => exact hover s
    | wrote l d => exact .talking l d
  | talking l d =>
    cases hg with
    | ended _ _ o =>
      cases o with
      | ok raw => exact .ended _ (.inl rfl) fun _ => ⟨l, raw, rfl, rfl⟩
      | error s => exact hover s
  | ended x hp _ => rcases hp with hp | hp <;> cases hp

section

variable {asked : Nat → Operation} {b b' : Broker Result} {m : Move Result} {c : Nat} {r : Ref}
  {command : Command} {p : Phase Result} {past : List (Deed Result)}

/-- The call of a command goes on. -/
theorem Told.step (h : Told r command ⟨c, 0⟩ (eventsOf ⟨c, 0⟩ (log past)) p)
    (hp : b.phase? c = some p) (hc : b.mover? m = some c) (hm : b.step m = some b')
    (ha : ∀ c, m ≠ .abandon c) :
    ∃ p', b'.phase? c = some p' ∧
      Told r command ⟨c, 0⟩ (eventsOf ⟨c, 0⟩ (log (past ++ [⟨b, m⟩]))) p' := by
  have hquiet : Deed.event? ⟨b, m⟩ = none →
      eventsOf ⟨c, 0⟩ (log (past ++ [⟨b, m⟩])) = eventsOf ⟨c, 0⟩ (log past) := by
    intro he
    rw [eventsOf_snoc, he]
    exact List.append_nil _
  have hgoes : ∀ {state : LegState},
      p = .conversing [⟨r, command, state⟩] (afterCommand r command) →
      ∃ p', b'.phase? c = some p' ∧
        Told r command ⟨c, 0⟩ (eventsOf ⟨c, 0⟩ (log (past ++ [⟨b, m⟩]))) p' := by
    rintro state rfl
    obtain ⟨i, leg, state', hl, hg, hp'⟩ := step_of_conversing hp hc hm ha
    -- there is only one command
    obtain rfl : i = 0 := by
      by_contra hi
      rw [List.getElem?_eq_none (by simp; omega)] at hl
      cases hl
    cases hl
    refine ⟨_, hp', ?_⟩
    have he : eventsOf ⟨c, 0⟩ (Deed.event? ⟨b, m⟩).toList = (Deed.event? ⟨b, m⟩).toList := by
      generalize Deed.event? ⟨b, m⟩ = e at hg
      cases hg <;> simp [eventsOf, Event.ticket?]
    rw [eventsOf_snoc, he]
    exact told_goes hg h
  generalize hev : eventsOf ⟨c, 0⟩ (log past) = events at h
  cases h with
  | begun =>
    obtain ⟨rfl, rfl⟩ := step_of_running hp hc hm ha
    have he : Deed.event? ⟨b, .run c⟩ = none := by simp only [Deed.event?, hp]
    rw [hquiet he, hev]
    refine ⟨_, ?_, .queued⟩
    exact phase?_setPhase_self ((phase?_queueLegs ..).trans hp)
  | queued | talking l d => exact hgoes rfl
  | ended x hpx hx =>
    rcases hpx with rfl | rfl
    · obtain ⟨rfl, rfl⟩ := step_of_running hp hc hm ha
      have he : Deed.event? ⟨b, .run c⟩ = none := by simp only [Deed.event?, hp]
      rw [hquiet he, hev]
      exact ⟨_, phase?_setPhase_self hp, .ended x (.inr rfl) hx⟩
    · exact absurd hc (not_mover_of_finished hp hm ha)

/-- The call of a command is on its way from the start to its result, unless it is given up. -/
theorem told_step (hasked : asked c = .execute r command)
    (h : (b.phase? c = none ∧ eventsOf ⟨c, 0⟩ (log past) = []) ∨
      ∃ p, b.phase? c = some p ∧ Told r command ⟨c, 0⟩ (eventsOf ⟨c, 0⟩ (log past)) p)
    (hs : Operation.Starts asked b m) (hm : b.step m = some b') (ha : m ≠ .abandon c) :
    (b'.phase? c = none ∧ eventsOf ⟨c, 0⟩ (log (past ++ [⟨b, m⟩])) = []) ∨
      ∃ p, b'.phase? c = some p ∧
        Told r command ⟨c, 0⟩ (eventsOf ⟨c, 0⟩ (log (past ++ [⟨b, m⟩]))) p := by
  by_cases hc : b.mover? m = some c
  · have ha : ∀ k, m ≠ .abandon k := by
      rintro k rfl
      cases hc
      exact ha rfl
    rcases h with ⟨hp, hev⟩ | ⟨p, hp, ht⟩
    · have hno : ∀ p, b.phase? c = some p → ¬p.IsWaiting := fun p hp' => by cases hp.symm.trans hp'
      rcases step_of_not_waiting hno hc hm ha with ⟨program, refs, brings, rfl⟩ | ⟨-, q, hq, -⟩
      · cases hc
        cases hm
        obtain ⟨-, rfl, -⟩ := hs
        refine .inr ⟨.running (Operation.execute r command).program, ?_, ?_⟩
        · rw [phase?, List.getElem?_concat_length, hasked]
          rfl
        · rw [eventsOf_snoc, hev]
          exact told_program r command _
      · cases hp.symm.trans hq
    · exact .inr (ht.step hp hc hm ha)
  · rw [phase?_step hm hc, eventsOf_of_not_mover (t := ⟨c, 0⟩) hc]
    exact h

/-- Every call that sends one command is on its way from the start to its result. -/
def AllTold (asked : Nat → Operation) (past : List (Deed Result)) (b : Broker Result) : Prop :=
  ∀ c r command, asked c = .execute r command →
    (b.phase? c = none ∧ eventsOf ⟨c, 0⟩ (log past) = []) ∨
      ∃ p, b.phase? c = some p ∧ Told r command ⟨c, 0⟩ (eventsOf ⟨c, 0⟩ (log past)) p

theorem AllTold.step (h : AllTold asked past b) (hs : Operation.Starts asked b m)
    (hm : b.step m = some b') (ha : ∀ c, m ≠ .abandon c) :
    AllTold asked (past ++ [⟨b, m⟩]) b' := fun c r command hasked =>
  told_step hasked (h c r command hasked) hs hm (ha c)

/-- A line that was written and the reply that was read for it, with what could be seen of others in
between. -/
theorem exists_of_eventsOf {t : Ticket} {log : List Event} {e e' : Event}
    (h : eventsOf t log = [e, e']) :
    ∃ pre mid post, log = pre ++ e :: (mid ++ e' :: post) ∧ ∀ x ∈ mid, x.ticket? ≠ some t := by
  obtain ⟨pre, rest, rfl, -, -, hrest⟩ := List.filter_eq_cons_iff.1 h
  obtain ⟨mid, post, rfl, hmid, -, -⟩ := List.filter_eq_cons_iff.1 hrest
  exact ⟨pre, mid, post, rfl, fun x hx => by simpa using hmid x hx⟩

/-- In every run in which workers answer each line once and say nothing else, and in which nobody
who waits for a reply is given up:

* a command that comes to a value, or to an error that the worker reported, comes to what the answer
  to its own line says, the one with the number of that line on the connection it was written on;
* between two lines on a connection the reply to the first has been read;
* after an exchange without a reply no line is seen on its connection any more;
* and the lines that are seen on a connection are those that were written on it. -/
theorem Broker.faithful_of_diligent {timeout : Nat}
    (hr : Run (fun past b m => Operation.Starts asked b m ∧ Diligent past m)
      (fresh timeout) past b) :
    (∀ c r command x, asked c = .execute r command → b.phase? c = some (.finished (.reply x)) →
      IsAnswer x → ∃ l pre post raw, log past = pre ++ .wrote ⟨c, 0⟩ l command.line :: post ∧
        (answersOn l (log past))[(linesOn l pre).length]? = some raw ∧ x = decodeReply raw) ∧
    (∀ pre mid post t u l line line',
      log past = pre ++ .wrote t l line :: (mid ++ .wrote u l line' :: post) →
        ∃ raw, .ended t l (.ok raw) ∈ mid) ∧
    (∀ pre post t l s, log past = pre ++ .ended t l (.error s) :: post → linesOn l post = []) ∧
    ∀ l, (b.link l).sent = linesOn l (log past) := by
  obtain ⟨β, -, ho, ht⟩ := hr.course
    (P := fun past b β => Orderly asked past b β ∧ AllTold asked past b) (fun _ _ _ h => h.1)
    (.fresh asked timeout) ⟨.fresh asked timeout, fun _ _ _ _ => .inl ⟨rfl, rfl⟩⟩
    fun past b m β b' β' h ha hm => ⟨h.1.step hm ha.2,
      h.2.step ha.1 hm.step (by rintro c rfl; exact ha.2)⟩
  refine ⟨fun c r command x hasked hx hanswer => ?_, fun pre mid post t u l line line' h => ?_,
    fun pre post t l s h => ?_, ho.lines⟩
  · rcases ht c r command hasked with ⟨hp, -⟩ | ⟨p, hp, ht⟩
    · cases hp.symm.trans hx
    · obtain rfl := Option.some.inj (hp.symm.trans hx)
      generalize hev : eventsOf ⟨c, 0⟩ (log past) = events at ht
      cases ht with
      | ended y hy hread =>
        rcases hy with hy | hy <;> cases hy
        obtain ⟨l, raw, rfl, rfl⟩ := hread hanswer
        obtain ⟨pre, mid, post, hlog, hmid⟩ := exists_of_eventsOf hev
        obtain ⟨w, hw, -⟩ := ho.wires l
        rw [hlog] at hw
        refine ⟨l, pre, _, raw, hlog, ?_, rfl⟩
        rw [hlog]
        exact Wire.reply_of_exchange hw hmid
  · obtain ⟨w, hw, -⟩ := ho.wires l
    rw [h] at hw
    exact Wire.reply_between hw
  · obtain ⟨w, hw, -⟩ := ho.wires l
    rw [h] at hw
    exact Wire.no_line_after hw

end

/-- Two commands are sent to the primary, it gets another connection, and one more is sent. -/
def primaryReplaced : Nat → Operation
  | 0 => .registerPrimary 0
  | 1 | 4 => .execute ⟨0, .primary, primaryId⟩ .status
  | 2 => .execute ⟨0, .primary, primaryId⟩ .clear
  | 3 => .replaceConnection ⟨0, .primary, primaryId⟩ 1
  | _ => .listing

/-- The second command is given up because the new connection is announced. Its answer comes late,
on the old connection, while the third command waits for its own. -/
def primaryReplaced.script : List Cue :=
  [.move .accept, .call, .move (.run 0), .move (.run 0), .move (.run 0),
    .call, .move (.run 1), .call, .move (.run 2), .move (.serve 0),
    .move (.signal 0 (.bytes "[1]".toUTF8.toList)), .move (.receive 1 0), .move (.run 1),
    .move (.serve 0),
    -- the connection is replaced
    .move .accept, .call, .move (.run 3), .move (.supersede 2 0), .move (.run 2),
    .move (.run 3), .move (.serve 0), .move (.run 3),
    -- the third command
    .call, .move (.run 4), .move (.serve 0), .move (.signal 0 (.bytes "[2]".toUTF8.toList)),
    .move (.signal 1 (.bytes "[3]".toUTF8.toList)), .move (.receive 4 0), .move (.run 4)]

theorem Broker.faithful_when_replaced :
    ∃ past b, Run (fun past b m => Operation.Starts primaryReplaced b m ∧ Diligent past m)
        (fresh 5) past b ∧
      (b.link 0).sent = [Command.status.line, Command.clear.line] ∧
      (b.link 1).sent = [Command.status.line] ∧
      b.phase? 4 = some (.finished (.reply (decodeReply "[3]".toUTF8.toList))) := by
  obtain ⟨past, b, hr, hfirst, hsecond, hon, hanswers, hreply⟩ :
      ∃ past b, Run (fun past b m => Operation.Starts primaryReplaced b m ∧ Diligent past m)
          (fresh 5) past b ∧
        linesOn 0 (log past) = [Command.status.line, Command.clear.line] ∧
        linesOn 1 (log past) = [Command.status.line] ∧
        (∀ e ∈ log past, e.ticket? = some ⟨4, 0⟩ → e.link = 1) ∧
        answersOn 1 (log past) = ["[3]".toUTF8.toList] ∧
        (b.result? 4).any fun x => x.isValue :=
    exists_run_of_play Diligent primaryReplaced.script (fun _ _ _ h h' => ⟨h, h'⟩)
      (by decide +kernel)
  obtain ⟨hvalue, -, -, hsent⟩ := faithful_of_diligent hr
  obtain ⟨y, hy, hyv⟩ := (Option.any_eq_true _ _).1 hreply
  obtain ⟨value, rfl⟩ := Result.eq_of_isValue hyv
  have hp := phase?_of_result? hy
  obtain ⟨l, pre, post, raw, hlog, hraw, hx⟩ := hvalue 4 _ _ _ rfl hp trivial
  obtain rfl : l = 1 :=
    hon (.wrote ⟨4, 0⟩ l Command.status.line) (by rw [hlog]; simp) rfl
  have hmem := List.mem_of_getElem? hraw
  rw [hanswers, List.mem_singleton] at hmem
  rw [hx, hmem] at hp
  exact ⟨past, b, hr, (hsent 0).trans hfirst, (hsent 1).trans hsecond, hp⟩

end WorkerBroker
