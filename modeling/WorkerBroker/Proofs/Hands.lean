import WorkerBroker.Proofs.Conversations
/-!
# Connections in hand

A connection that is handed over for a registration is in the hands of one call until it is placed
with a member, offered, or dropped, and a program does with it what it likes exactly once
(`Program.Holds`). Who keeps to the discipline of `Proofs.Conduct` does so, and who sends commands
once has nothing in hand at all.

`Broker.Handed` carries this along any run of services: what members have and what calls have in
hand is open, and no connection is in two places. So whoever closes the connection in hand, or that
of a member, closes nobody else's.
-/

namespace WorkerBroker

open Function (update)

/-! ## Programs with a connection in hand -/

/-- The connection that a wait is about. -/
def Wait.link? : Wait → Option Nat
  | .enter _ turn => turn.link?
  | .converse _ => none
  | .greet l => some l

/-- The connection in hand after a wait. -/
def Wait.handAfter (hand : Option Nat) : (w : Wait) → w.Answer → Option Nat
  | .enter _ turn, x => turn.handAfter hand x
  | .converse _, _ | .greet _, _ => hand

namespace Program

variable {ω : Type}

/-- The program has a connection in hand, or none, and places, offers and drops no other. -/
def Holds : Option Nat → Program ω → Prop
  | _, done _ => True
  | hand, act a next => (∀ l ∈ a.link?, hand = some l) ∧
      ∀ x, a.Plausible x → (next x).Holds (a.handAfter hand)
  | hand, wait w next => (∀ l ∈ w.link?, hand = some l) ∧
      ∀ x, (next x).Holds (w.handAfter hand x)

/-- Who sends commands once has nothing to place. -/
theorem AsksOnce.holds {p : Program ω} (h : p.AsksOnce) (hand : Option Nat) : p.Holds hand := by
  induction p generalizing hand with
  | done x => trivial
  | act a next ih =>
    refine ⟨fun l hl => ?_, fun x _ => ih x (h.2 x) _⟩
    rw [h.1] at hl
    cases hl
  | wait w next ih =>
    cases w with
    | enter r turn =>
      refine ⟨fun l hl => ?_, fun x => ih x (h.2 x) _⟩
      rw [show (Wait.enter r turn).link? = none from h.1] at hl
      cases hl
    | converse commands => exact ⟨nofun, fun outcomes => ih outcomes (h outcomes).asksOnce _⟩
    | greet link => exact h.elim

/-- Who keeps to the discipline places the connection in hand, and no other. -/
theorem Obeys.holds {licence : Licence ω} {refs : List Ref} {β : Burden} {p : Program ω}
    (h : p.Obeys licence refs β) : p.Holds β.link? := by
  induction p generalizing refs β with
  | done x => trivial
  | act a next ih =>
    obtain ⟨-, hn⟩ := h
    refine ⟨?_, fun x hx => ?_⟩
    · obtain ⟨x, hx⟩ := a.exists_plausible
      obtain ⟨β', ha, -⟩ := hn x hx
      exact ha.hand.1
    · obtain ⟨β', ha, ho⟩ := hn x hx
      rw [← ha.hand.2]
      exact ih x ho
  | wait w next ih =>
    cases w with
    | enter r turn =>
      obtain ⟨-, hn⟩ := h
      refine ⟨?_, fun x => ?_⟩
      · -- whatever the answer is, the turn is the same
        obtain ⟨x⟩ := turn.exists_answer
        obtain ⟨β', ht, -⟩ := hn x
        exact ht.hand.1
      · obtain ⟨β', ht, ho⟩ := hn x
        rw [Wait.handAfter, ← ht.hand.2]
        exact ih x ho
    | converse commands =>
      obtain ⟨rfl, -, hn⟩ := h
      exact ⟨nofun, fun outcomes => ih outcomes (hn outcomes)⟩
    | greet link =>
      obtain ⟨rfl, hn⟩ := h
      refine ⟨fun l hl => hl, fun o => ?_⟩
      have ho := ih o (hn o)
      cases o <;> exact ho

/-- A program whose result is put in other words does the same. -/
theorem Holds.map {α : Type} {hand : Option Nat} {p : Program α} (h : p.Holds hand) (f : α → ω) :
    (p.bind fun x => done (f x)).Holds hand := by
  induction p generalizing hand with
  | done x => trivial
  | act a next ih => exact ⟨h.1, fun x hx => ih x (h.2 x hx)⟩
  | wait w next ih => exact ⟨h.1, fun x => ih x (h.2 x)⟩

end Program

/-! ## Who has what in hand -/

/-- The burden of a call that has a connection in hand, or none. -/
def Burden.ofHand : Option Nat → Burden
  | some l => .carries l none
  | none => .nothing

@[simp] theorem Burden.link?_ofHand (hand : Option Nat) : (Burden.ofHand hand).link? = hand := by
  cases hand <;> rfl

namespace Broker

variable {ω : Type} {b b' : Broker ω} {m : Move ω} {c : Nat} {hand : Nat → Option Nat}

/-- Calls have these connections in hand. Whatever somebody has is open and nobody else has it, and
who has a connection in hand was started for it. -/
structure Handed (b : Broker ω) (hand : Nat → Option Nat) : Prop where
  held : b.standing.Held fun c => .ofHand (hand c)
  holds : ∀ c p, b.left? c = some p → p.Holds (hand c)
  active : ∀ c l, hand c = some l →
    ∃ call, b.calls[c]? = some call ∧ call.isActive ∧ call.brings = some l

namespace Handed

theorem fresh (timeout : Nat) : (fresh timeout : Broker ω).Handed fun _ => none where
  held := ⟨nofun, nofun, nofun, nofun, nofun⟩
  holds := nofun
  active := nofun

/-- What is in hand after one call has changed what it has. -/
theorem ofHand_update (hand : Nat → Option Nat) (c : Nat) (x : Option Nat) :
    (fun k => Burden.ofHand (update hand c x k)) =
      update (fun k => .ofHand (hand k)) c (.ofHand x) :=
  funext fun k => Function.apply_update (fun _ => Burden.ofHand) hand c x k

/-- The calls are as they were. -/
theorem congr (h : b.Handed hand) (hcalls : b'.calls = b.calls)
    (hheld : b'.standing.Held fun c => .ofHand (hand c)) : b'.Handed hand where
  held := hheld
  holds k p hp := h.holds k p (by rw [← hp, left?, left?, phase?, phase?, hcalls])
  active k l hl := by
    rw [hcalls]
    exact h.active k l hl

/-- One call goes to another phase, and does not take a connection in hand in it. -/
theorem setPhase {a : Broker ω} {p q : Phase ω} {x : Option Nat} (h : b.Handed hand)
    (ha : a.calls = b.calls) (refs : List Ref) (hp : b.phase? c = some p)
    (hheld : a.standing.Held (update (fun k => .ofHand (hand k)) c (.ofHand x)))
    (hq : ∀ r, q.left? = some r → r.Holds x)
    (hx : ∀ l, x = some l → hand c = some l ∧ ∀ refs brings, Call.isActive ⟨q, refs, brings⟩) :
    ((a.meet c refs).setPhase c q).Handed (update hand c x) := by
  obtain ⟨call, hcall, rfl⟩ := exists_call_of_phase hp
  have hself : ((a.meet c refs).setPhase c q).calls[c]? =
      some { call with phase := q, refs := refs ++ call.refs } := by
    rw [calls_setPhase, if_pos rfl, calls_meet, if_pos rfl, ha, hcall]
    rfl
  have hother : ∀ k, k ≠ c → ((a.meet c refs).setPhase c q).calls[k]? = b.calls[k]? := by
    intro k hk
    rw [calls_setPhase, if_neg hk, calls_meet, if_neg hk, ha]
  constructor
  · rw [ofHand_update]
    exact hheld
  · intro k r hr
    by_cases hk : k = c
    · subst hk
      rw [Function.update_self]
      rw [left?, phase?, hself] at hr
      exact hq r hr
    · rw [Function.update_of_ne hk]
      rw [left?, phase?, hother k hk] at hr
      exact h.holds k r hr
  · intro k l hl
    by_cases hk : k = c
    · subst hk
      rw [Function.update_self] at hl
      obtain ⟨hold, hactive⟩ := hx l hl
      obtain ⟨call', hcall', -, hbrings⟩ := h.active k l hold
      cases hcall.symm.trans hcall'
      exact ⟨_, hself, hactive _ _, hbrings⟩
    · rw [Function.update_of_ne hk] at hl
      rw [hother k hk]
      exact h.active k l hl

theorem meet_nil (a : Broker ω) (c : Nat) : a.meet c [] = a := by
  simp only [meet, List.nil_append]
  rw [show (fun call : Call ω => (⟨call.phase, call.refs, call.brings⟩ : Call ω)) = id from rfl,
    List.modify_id]

/-- One call goes to another phase, with the connection that it has in hand. -/
theorem keep {a : Broker ω} {p q : Phase ω} (h : b.Handed hand) (ha : a.calls = b.calls)
    (hp : b.phase? c = some p) (hheld : a.standing.Held fun k => .ofHand (hand k))
    (hq : ∀ r, q.left? = some r → r.Holds (hand c))
    (hactive : ∀ refs brings, Call.isActive ⟨q, refs, brings⟩) : (a.setPhase c q).Handed hand := by
  have h' := h.setPhase (q := q) (x := hand c) ha [] hp (by
    rw [← ofHand_update, Function.update_eq_self]
    exact hheld) hq fun l hl => ⟨hl, hactive⟩
  rwa [meet_nil, Function.update_eq_self] at h'

/-- A call comes to its end, and has nothing in hand any more. -/
theorem finish {p q : Phase ω} {a : Broker ω} (h : b.Handed hand) (ha : a.calls = b.calls)
    (hp : b.phase? c = some p) (hheld : a.standing.Held fun k => .ofHand (hand k))
    (hq : ∀ r, q.left? = some r → ∃ x, r = .done x) :
    (a.setPhase c q).Handed (update hand c none) := by
  have h' := h.setPhase (q := q) (x := none) ha [] hp (hheld.unburden rfl) (fun r hr => ?_) nofun
  · rwa [meet_nil] at h'
  · obtain ⟨x, rfl⟩ := hq r hr
    trivial

/-- Commands that go on leave as much in hand as before. -/
theorem holds_phaseOf {x : Option Nat} {legs : List Leg} {next : List Outcome → Program ω}
    (hn : ∀ outcomes, (next outcomes).Holds x) :
    ∀ r, (phaseOf legs next).left? = some r → r.Holds x := by
  intro r hr
  unfold phaseOf at hr
  split at hr
  · cases hr
    exact hn _
  · cases hr
    exact ⟨nofun, hn⟩

theorem isActive_phaseOf (legs : List Leg) (next : List Outcome → Program ω) (refs : List Ref)
    (brings : Option Nat) : Call.isActive ⟨phaseOf legs next, refs, brings⟩ := by
  unfold phaseOf
  split <;> rfl

theorem setLeg {a : Broker ω} {t : Ticket} {legs : List Leg} {next : List Outcome → Program ω}
    (h : b.Handed hand) (ha : a.calls = b.calls)
    (hp : b.phase? t.call = some (.conversing legs next))
    (hheld : a.standing.Held fun k => .ofHand (hand k)) (state : LegState) :
    (a.setLeg t state).Handed hand := by
  have hp' : a.phase? t.call = some (.conversing legs next) := by rw [← hp, phase?, phase?, ha]
  have hn := (h.holds _ _ (left?_of_phase hp)).2
  simp only [Broker.setLeg, hp']
  exact h.keep ha hp hheld (holds_phaseOf hn) (isActive_phaseOf _ _)

/-- The exchange of a command is over, and its member may have lost its connection. -/
theorem settle {a : Broker ω} {t : Ticket} {legs : List Leg} {next : List Outcome → Program ω}
    (h : b.Handed hand) (ha : a.calls = b.calls) (hs : a.standing = b.standing)
    (hp : b.phase? t.call = some (.conversing legs next)) (n : Nat) (o : Outcome) :
    (a.settle n t o).Handed hand := by
  obtain ⟨a', e, ha', hst⟩ := settle_eq a n t o
  rw [e]
  refine h.setLeg (ha'.trans ha) hp ?_ _
  rw [hs] at hst
  rcases hst with hst | hst <;> rw [hst]
  · exact h.held
  · exact h.held.disconnect n

/-- A call makes the next step of its program. -/
theorem run {p : Program ω} (h : b.Handed hand) (hs : b.standing.Sound fun _ => .nothing)
    (hp : b.phase? c = some (.running p)) : ∃ hand', (b.stepProgram c p).Handed hand' := by
  have hholds := h.holds c p (left?_of_phase hp)
  cases p with
  | done x =>
    refine ⟨_, h.finish rfl hp h.held fun r hr => ?_⟩
    cases hr
    exact ⟨x, rfl⟩
  | act a next =>
    obtain ⟨hl, hn⟩ := hholds
    have hheld : (b.act a).2.standing.Held
        (update (fun k => .ofHand (hand k)) c (.ofHand (a.handAfter (hand c)))) :=
      held_act h.held (by simpa using hl) (by simp)
    refine ⟨_, h.setPhase (b.calls_act a) (refsOf a (b.act a).1) hp hheld (fun r hr => ?_)
      fun l hx => ?_⟩
    · cases hr
      exact hn _ (plausible_act hs a)
    · exact ⟨Act.of_handAfter hx, fun _ _ => rfl⟩
  | wait w next =>
    refine ⟨hand, ?_⟩
    cases w with
    | enter r turn =>
      refine h.keep (a := b.queueUp r.number ⟨c, 0⟩) rfl hp ?_ (fun q hq => ?_) fun _ _ => rfl
      · rw [standing_queueUp]
        exact h.held
      · cases hq
        exact hholds
    | converse commands =>
      refine h.keep (calls_queueLegs ..) hp ?_ (holds_phaseOf hholds.2) (isActive_phaseOf _ _)
      rw [standing_queueLegs]
      exact h.held
    | greet l =>
      simp only [stepProgram, beginWait]
      split
      · refine h.keep (a := b.changeLink l _) rfl hp ?_ (fun q hq => ?_) fun _ _ => rfl
        · rw [standing_changeLink b l (by rfl)]
          exact h.held
        · cases hq
          exact hholds
      · refine h.keep rfl hp h.held (fun q hq => ?_) fun _ _ => rfl
        cases hq
        exact hholds.2 (.error .reset)

/-- A call is started for a connection that nobody has. -/
theorem start {program : Program ω} {brings : Option Nat} (h : b.Handed hand)
    (hprogram : program.Holds brings) (hfree : ∀ l ∈ brings, b.IsFree l) (refs : List Ref) :
    Handed { b with calls := b.calls ++ [⟨.running program, refs, brings⟩] }
      (update hand b.calls.length brings) where
  held := by
    rw [ofHand_update]
    refine h.held.take fun l hl => ?_
    rw [Burden.link?_ofHand] at hl
    obtain ⟨hlt, hopen, hmembers, hcalls⟩ := hfree l hl
    refine ⟨?_, fun n ch hch e => ?_, fun k hk => ?_⟩
    · change (b.links.map Link.closed)[l]? = some false
      rw [List.getElem?_map, List.getElem?_eq_getElem hlt]
      simpa [link, List.getElem?_eq_getElem hlt] using hopen
    · rw [channel_standing] at hch
      rcases hm : b.members[n]? with _ | m
      · rw [member, hm] at hch
        cases hch
      · rw [member, hm] at hch
        refine hmembers m (List.mem_of_getElem? hm) ?_
        rw [show m.channel = some ch from hch, ← e]
        rfl
    · rw [Burden.link?_ofHand] at hk
      obtain ⟨call, hcall, hactive, hbrings⟩ := h.active k l hk
      exact hcalls call (List.mem_of_getElem? hcall) hactive hbrings
  holds k p hp := by
    by_cases hk : k = b.calls.length
    · subst hk
      rw [Function.update_self]
      rw [left?, phase?, List.getElem?_concat_length] at hp
      cases hp
      exact hprogram
    · rw [Function.update_of_ne hk]
      refine h.holds k p ?_
      rwa [left?, phase?, getElem?_concat_ne _ _ hk] at hp
  active k l hl := by
    by_cases hk : k = b.calls.length
    · subst hk
      rw [Function.update_self] at hl
      exact ⟨_, List.getElem?_concat_length, rfl, hl⟩
    · rw [Function.update_of_ne hk] at hl
      rw [getElem?_concat_ne _ _ hk]
      exact h.active k l hl

/-- In every move connections go from hand to hand in an orderly way. -/
theorem step (h : b.Handed hand) (hb : b.Steady) (hm : b.step m = some b')
    (hstart : ∀ program refs brings, m = .start program refs brings →
      program.Holds brings ∧ ∀ l ∈ brings, b.IsFree l) : ∃ hand', b'.Handed hand' := by
  cases makes_of_step hm with
  | starts program refs brings =>
    obtain ⟨hprogram, hfree⟩ := hstart program refs brings rfl
    exact ⟨_, h.start hprogram hfree refs⟩
  | runs hp => exact h.run hb.sound hp
  | @turns n t rest r turn next hn hp =>
    -- the member that serves the ticket is the one that the turn is on
    obtain ⟨rfl, -⟩ := hb.order.waitsAt hn hp
    obtain ⟨hl, hnext⟩ := h.holds t.call _ (left?_of_phase hp)
    have hgenuine := hb.genuine_of_wait hp rfl r (List.mem_singleton_self r)
    have hl : ∀ l ∈ turn.link?, hand t.call = some l := hl
    have hheld : ((b.take r.number turn).2.serveNext r.number).standing.Held
        (update (fun k => .ofHand (hand k)) t.call
          (.ofHand (turn.handAfter (hand t.call) (b.take r.number turn).1))) := by
      rw [standing_serveNext]
      exact held_take h.held (by simpa using hl) (by simp) hgenuine
    have hcalls : ((b.take r.number turn).2.serveNext r.number).calls = b.calls :=
      b.calls_take r.number turn
    refine ⟨_, meet_nil _ t.call ▸ h.setPhase hcalls [] hp hheld (fun q hq => ?_) fun l hx => ?_⟩
    · cases hq
      exact hnext _
    · exact ⟨Turn.of_handAfter hx, fun _ _ => rfl⟩
  | begins hn hp hl =>
    obtain ⟨a, state, e, ha, hst, -⟩ := beginExchange_eq hn hp hl
    rw [e]
    refine ⟨hand, h.setLeg ha hp ?_ _⟩
    rcases hst with hst | hst <;> rw [hst]
    · exact h.held
    · exact h.held.disconnect _
  | @receives c leg n l _ o rest ht hrec =>
    obtain ⟨legs, next, -, hp, -⟩ := leg_of_talking? ht
    exact ⟨hand, h.settle (t := ⟨c, leg⟩) (a := b.changeLink l fun _ => rest) rfl
      (standing_changeLink b l (Link.closed_of_receive? hrec)) hp n o⟩
  | @supersedes c leg n _ _ _ ht _ _ =>
    obtain ⟨legs, next, -, hp, -⟩ := leg_of_talking? ht
    refine ⟨hand, h.setLeg (t := ⟨c, leg⟩) (a := b.serveNext n) rfl hp ?_ _⟩
    rw [standing_serveNext]
    exact h.held
  | @expires c leg n _ _ ht _ =>
    obtain ⟨legs, next, -, hp, -⟩ := leg_of_talking? ht
    exact ⟨hand, h.settle (t := ⟨c, leg⟩) rfl rfl hp n _⟩
  | @hears c l _ next o rest hp hrec =>
    refine ⟨hand, h.keep (a := b.changeLink l fun _ => rest) rfl hp ?_ (fun q hq => ?_)
      fun _ _ => rfl⟩
    · rw [standing_changeLink b l (Link.closed_of_receive? hrec)]
      exact h.held
    · cases hq
      exact (h.holds c _ (left?_of_phase hp)).2 o
  | @givesUp c _ _ next hp _ =>
    refine ⟨hand, h.keep rfl hp h.held (fun q hq => ?_) fun _ _ => rfl⟩
    cases hq
    exact (h.holds c _ (left?_of_phase hp)).2 _
  | @abandons c call hcall _ _ =>
    have hp : b.phase? c = some call.phase := congrArg (Option.map Call.phase) hcall
    refine ⟨_, h.finish (a := b.withdraw c) rfl hp ?_ nofun⟩
    rw [standing_withdraw]
    exact h.held
  | accepts =>
    refine ⟨hand, h.congr rfl ?_⟩
    rw [standing_accept]
    exact h.held.accept
  | signals l s =>
    refine ⟨hand, h.congr rfl ?_⟩
    rw [standing_changeLink b l (Link.closed_arrive s _)]
    exact h.held
  | @releases n _ _ =>
    refine ⟨hand, h.congr (b.calls_disconnect n) ?_⟩
    rw [standing_disconnect]
    exact h.held.disconnect n
  | passes _ => exact ⟨hand, h.congr rfl h.held⟩

end Handed

end Broker

/-! ## Services -/

namespace Service

open Broker

variable {asked : Nat → Service} {timeout : Nat} {past : List (Deed Upshot)} {b : Broker Upshot}

/-- What is done for a service places the connection that was handed over for it, and no other. -/
theorem holds_program (s : Service) : s.program.Holds s.brings := by
  cases s with
  | operation op =>
    have hburden : op.burden.link? = op.brings := by cases op <;> rfl
    have hop : op.program.Holds op.brings := hburden ▸ op.obeys.holds
    exact hop.map _
  | primary => exact (Program.mute_primary.asksOnce.holds none).map _
  | secondary kind id => exact ((Program.mute_secondary kind id).asksOnce.holds none).map _
  | request layout r => exact ((Gateway.asksOnce_handle layout r).holds none).map _

/-- At any time in a run of services, each connection is in one place. -/
theorem handed (hr : Run (fun _ => Starts asked) (fresh timeout) past b) :
    ∃ hand, b.Handed hand := by
  induction hr with
  | nil => exact ⟨_, .fresh timeout⟩
  | snoc m hr hs hm ih =>
    obtain ⟨hand, h⟩ := ih
    refine h.step (steady hr).1 hm ?_
    rintro program refs brings rfl
    obtain ⟨⟨-, hfree⟩, rfl, -, rfl⟩ := hs
    exact ⟨holds_program _, hfree⟩

/-- A connection that a member has lost is closed. -/
theorem closes {a : Broker Upshot} {past under : List (Deed Upshot)} {n : Nat} {ch : Channel}
    (ha : Run (fun _ => Starts asked) (fresh timeout) past a)
    (hr : Run (fun _ => Starts asked) a under b) (h : (a.standing.member n).channel = some ch) :
    (b.standing.member n).channel = some ch ∨ b.standing.IsClosed ch.link := by
  induction hr with
  | nil => exact .inl h
  | snoc m hr _ hm ih =>
    rcases ih with hn | hclosed
    · obtain ⟨hand, hh⟩ := handed (ha.append hr)
      exact (standing_step hm).closes hh.held hn
    · exact .inr ((standing_step hm).isClosed hclosed)

end Service

end WorkerBroker
