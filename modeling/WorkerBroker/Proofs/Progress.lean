import WorkerBroker.Proofs.Commands
/-!
# How calls go on

A call is a program that is carried out step by step while other calls are, too. What a move does to
the calls is said once (`Broker.calls_step`): it leaves them alone, starts one, or takes one call
from its phase to another (`Advance`).

From this it follows that a call does nothing but what is in its program. `Program.Leads` are the
paths through a program, each a list of steps with their answers. At any time, the steps of a call
in the past make a path from its program to what is left of it (`Broker.Run.leads`), and each answer
on the path was given by a move of that past (`Step.Made`). So whatever is true of all paths through
a program is true of the calls that carry it out, whoever else is at work.
-/

namespace WorkerBroker

/-! ## Paths through a program -/

/-- A step of a program: something that it does or waits for, and the answer. -/
inductive Step where
  | act (a : Act) (answer : a.Answer)
  | wait (w : Wait) (answer : w.Answer)

namespace Program

variable {ω α : Type}

/-- These steps lead from a program to what is left of it then. -/
inductive Leads : Program ω → List Step → Program ω → Prop where
  | refl (p : Program ω) : Leads p [] p
  | act {a : Act} {next : a.Answer → Program ω} {x : a.Answer} {steps : List Step}
      {q : Program ω} (h : Leads (next x) steps q) : Leads (.act a next) (.act a x :: steps) q
  | wait {w : Wait} {next : w.Answer → Program ω} {x : w.Answer} {steps : List Step}
      {q : Program ω} (h : Leads (next x) steps q) : Leads (.wait w next) (.wait w x :: steps) q

namespace Leads

variable {p q r : Program ω} {s t : List Step}

theorem trans (h : p.Leads s q) (h' : q.Leads t r) : p.Leads (s ++ t) r := by
  induction h with
  | refl p => exact h'
  | act _ ih => exact .act (ih h')
  | wait _ ih => exact .wait (ih h')

/-- Without a step the program is the same. -/
theorem of_nil (h : p.Leads [] q) : q = p := by
  cases h
  rfl

/-- A program that is done goes nowhere. -/
theorem of_done {x : ω} (h : (done x).Leads s q) : s = [] ∧ q = done x := by
  cases h
  exact ⟨rfl, rfl⟩

/-- The first step comes before the others. -/
theorem of_cons {e : Step} (h : p.Leads (e :: s) q) : ∃ r, p.Leads [e] r ∧ r.Leads s q := by
  cases h with
  | act h => exact ⟨_, .act (.refl _), h⟩
  | wait h => exact ⟨_, .wait (.refl _), h⟩

/-- What leads to the end of one program after the other, leads to the end of each. -/
theorem of_bind {p : Program α} {f : α → Program ω} {y : ω} (h : (p.bind f).Leads s (done y)) :
    ∃ s₁ x s₂, s = s₁ ++ s₂ ∧ p.Leads s₁ (done x) ∧ (f x).Leads s₂ (done y) := by
  induction p generalizing s with
  | done x => exact ⟨[], x, s, rfl, .refl _, h⟩
  | act a next ih =>
    cases h with
    | act h =>
      obtain ⟨s₁, x, s₂, rfl, h₁, h₂⟩ := ih _ h
      exact ⟨_, x, s₂, rfl, .act h₁, h₂⟩
  | wait w next ih =>
    cases h with
    | wait h =>
      obtain ⟨s₁, x, s₂, rfl, h₁, h₂⟩ := ih _ h
      exact ⟨_, x, s₂, rfl, .wait h₁, h₂⟩

/-- A program whose result is put in other words goes the same ways. -/
theorem of_map {p : Program α} {f : α → ω} (h : (p.bind fun x => done (f x)).Leads s q) :
    ∃ p', p.Leads s p' ∧ q = p'.bind fun x => done (f x) := by
  induction p generalizing s with
  | done x =>
    obtain ⟨rfl, rfl⟩ := h.of_done
    exact ⟨_, .refl _, rfl⟩
  | act a next ih =>
    cases h with
    | refl => exact ⟨_, .refl _, rfl⟩
    | act h =>
      obtain ⟨p', hp, rfl⟩ := ih _ h
      exact ⟨p', .act hp, rfl⟩
  | wait w next ih =>
    cases h with
    | refl => exact ⟨_, .refl _, rfl⟩
    | wait h =>
      obtain ⟨p', hp, rfl⟩ := ih _ h
      exact ⟨p', .wait hp, rfl⟩

/-- It comes to its end on the ways that lead to the end of the program. -/
theorem of_map_done {p : Program α} {f : α → ω} {y : ω}
    (h : (p.bind fun x => done (f x)).Leads s (done y)) : ∃ x, p.Leads s (done x) ∧ f x = y := by
  obtain ⟨s₁, x, s₂, rfl, hp, hlast⟩ := h.of_bind
  obtain ⟨rfl, hx⟩ := hlast.of_done
  rw [List.append_nil]
  cases hx
  exact ⟨x, hp, rfl⟩

end Leads

/-- What holds of a program if it holds of all that follows its first step, holds of all. -/
theorem induction_on_leads {P : Program ω → Prop}
    (h : ∀ p, (∀ e q, p.Leads [e] q → P q) → P p) (p : Program ω) : P p := by
  induction p with
  | done x =>
    refine h _ fun e q hl => ?_
    cases hl
  | act a next ih =>
    refine h _ fun e q hl => ?_
    cases hl with
    | act hl =>
      obtain rfl := hl.of_nil
      exact ih _
  | wait w next ih =>
    refine h _ fun e q hl => ?_
    cases hl with
    | wait hl =>
      obtain rfl := hl.of_nil
      exact ih _

/-- A program is never at the same place again. -/
theorem Leads.eq_nil {p : Program ω} {s : List Step} (h : p.Leads s p) : s = [] := by
  induction p using induction_on_leads generalizing s with
  | h p ih =>
  cases s with
  | nil => rfl
  | cons e s =>
    -- what follows the first step leads back to itself, too
    obtain ⟨q, hfirst, hrest⟩ := h.of_cons
    exact absurd (ih e q hfirst (hrest.trans hfirst)) (by simp)

end Program

/-! ## What is left of a call -/

namespace Phase

variable {ω : Type}

/-- What is left to do in this phase, unless whoever asked for it has gone away. -/
def left? : Phase ω → Option (Program ω)
  | running p => some p
  | entering r turn next => some (.wait (.enter r turn) next)
  | conversing legs next =>
    some (.wait (.converse (legs.map fun l => (l.member, l.command))) next)
  | greeting link _ next => some (.wait (.greet link) next)
  | finished x => some (.done x)
  | abandoned => none

theorem left?_eq_none {p : Phase ω} : p.left? = none ↔ p = .abandoned := by
  cases p <;> simp [left?]

end Phase

namespace Broker

variable {ω : Type}

/-- What is left of a call. -/
def left? (c : Nat) (b : Broker ω) : Option (Program ω) :=
  (b.phase? c).bind Phase.left?

theorem left?_of_phase {b : Broker ω} {c : Nat} {p : Phase ω} (h : b.phase? c = some p) :
    b.left? c = p.left? := by
  rw [left?, h, Option.bind_some]

/-- A call goes on if it is neither over nor given up. -/
theorem isActive_iff {b : Broker ω} {c : Nat} : b.IsActive c ↔
    ∃ p, b.phase? c = some p ∧ (∀ x, p ≠ .finished x) ∧ p ≠ .abandoned := by
  constructor
  · rintro ⟨call, hcall, hact⟩
    refine ⟨call.phase, by rw [phase?, hcall]; rfl, fun x hx => ?_, fun hx => ?_⟩ <;>
      rw [Call.isActive, hx] at hact <;> cases hact
  · rintro ⟨p, hp, hover, hgone⟩
    obtain ⟨call, hcall, rfl⟩ := exists_call_of_phase hp
    refine ⟨call, hcall, ?_⟩
    rw [Call.isActive]
    split
    · exact absurd ‹_› (hover _)
    · exact absurd ‹_› hgone
    · rfl

theorem isActive_of_phase {b : Broker ω} {c : Nat} {p : Phase ω} (hp : b.phase? c = some p)
    (h : ∀ refs brings, (Call.mk p refs brings).isActive) : b.IsActive c := by
  obtain ⟨call, hcall, rfl⟩ := exists_call_of_phase hp
  exact ⟨call, hcall, h call.refs call.brings⟩

/-- A call that does not go on has nothing left to do. -/
theorem eq_done_of_not_isActive {b : Broker ω} {c : Nat} {p : Program ω} (h : ¬b.IsActive c)
    (hl : b.left? c = some p) : ∃ x, p = .done x := by
  obtain ⟨ph, hp, hpl⟩ := Option.bind_eq_some_iff.1 hl
  have hover : (∃ x, ph = .finished x) ∨ ph = .abandoned := by
    by_contra hnot
    rw [not_or, not_exists] at hnot
    exact h (isActive_iff.2 ⟨ph, hp, hnot.1, hnot.2⟩)
  rcases hover with ⟨x, rfl⟩ | rfl <;> cases hpl
  exact ⟨x, rfl⟩

/-- A command of a call has come to a reply. -/
def Replied (b : Broker ω) (t : Ticket) (raw : Bytes) : Prop :=
  ∃ legs next leg, b.phase? t.call = some (.conversing legs next) ∧ legs[t.leg]? = some leg ∧
    leg.state = .ended (.ok raw)

end Broker

/-! ## What a move does to the calls -/

open Broker

/-- How a move takes a call from one phase to another, and which members the call comes across. -/
inductive Advance {ω : Type} (b : Broker ω) (c : Nat) :
    Move ω → Phase ω → List Ref → Phase ω → Prop where
  | finishes {x : ω} : Advance b c (.run c) (.running (.done x)) [] (.finished x)
  | acts {a : Act} {next : a.Answer → Program ω} :
      Advance b c (.run c) (.running (.act a next)) (refsOf a (b.act a).1)
        (.running (next (b.act a).1))
  | enters {r : Ref} {turn : Turn} {next : turn.Answer → Program ω} :
      Advance b c (.run c) (.running (.wait (.enter r turn) next)) [] (.entering r turn next)
  | converses {commands : List (Ref × Command)} {next : List Outcome → Program ω} :
      Advance b c (.run c) (.running (.wait (.converse commands) next)) []
        (phaseOf (commands.map fun (r, command) => ⟨r, command, .queued⟩) next)
  | asks {link deadline : Nat} {next : Outcome → Program ω} :
      Advance b c (.run c) (.running (.wait (.greet link) next)) [] (.greeting link deadline next)
  | fails {link : Nat} {next : Outcome → Program ω}
      (he : Deed.event? ⟨b, .run c⟩ = some (.ended ⟨c, 0⟩ link (.error .reset))) :
      Advance b c (.run c) (.running (.wait (.greet link) next)) []
        (.running (next (.error .reset)))
  | turns {n : Nat} {r : Ref} {turn : Turn} {next : turn.Answer → Program ω} :
      Advance b c (.serve n) (.entering r turn next) [] (.running (next (b.take n turn).1))
  | goes {m : Move ω} {legs : List Leg} {next : List Outcome → Program ω} {i : Nat} {leg : Leg}
      {state : LegState} (hl : legs[i]? = some leg)
      (hg : Goes ⟨c, i⟩ leg.command leg.state (Deed.event? ⟨b, m⟩) state) :
      Advance b c m (.conversing legs next) []
        (phaseOf (legs.modify i fun l => { l with state }) next)
  | hears {m : Move ω} {link deadline : Nat} {next : Outcome → Program ω} {o : Outcome}
      (he : Deed.event? ⟨b, m⟩ = some (.ended ⟨c, 0⟩ link o)) :
      Advance b c m (.greeting link deadline next) [] (.running (next o))
  | leaves {p : Phase ω} : Advance b c (.abandon c) p [] .abandoned

namespace Broker

variable {ω : Type} {b b' : Broker ω} {m : Move ω} {c : Nat}

/-- The call that goes to another phase is the only one that changes. -/
theorem calls_setPhase_eq {a : Broker ω} {call : Call ω} (ha : a.calls = b.calls)
    (hc : b.calls[c]? = some call) (p : Phase ω) :
    (a.setPhase c p).calls = b.calls.set c { call with phase := p } := by
  simp only [setPhase, ha, List.modify_eq_set_getElem?, hc, Option.map_eq_map, Option.map_some,
    Option.getD_some]

/-- When it is the turn of a command, its leg goes on, and its member may lose its connection. -/
theorem beginExchange_eq {n : Nat} {t : Ticket} {rest : List Ticket} {legs : List Leg} {r : Ref}
    {command : Command} {next : List Outcome → Program ω} (hn : (b.member n).queue = t :: rest)
    (hp : b.phase? t.call = some (.conversing legs next))
    (hl : legs[t.leg]? = some ⟨r, command, .queued⟩) :
    ∃ (a : Broker ω) (state : LegState), b.beginExchange n t command = a.setLeg t state ∧
      a.calls = b.calls ∧
      (a.standing = b.standing ∨ a.standing = b.standing.disconnect n) ∧
      Goes t command .queued (Deed.event? ⟨b, .serve n⟩) state := by
  have hq : b.queued? t = some command := by simp only [queued?, hp, hl]
  rw [Deed.event?_serve hn, beginExchange, serving, hq]
  rcases (b.member n).channel with _ | ⟨l, g⟩
  · exact ⟨b.serveNext n, _, rfl, rfl, .inl (standing_serveNext b n), .refused .closed⟩
  · by_cases hg : g = (b.member n).generation
    · simp only [hg, ne_eq, not_true_eq_false, if_false, if_true, writing]
      split
      · exact ⟨b.changeLink l _, _, rfl, rfl, .inl (standing_changeLink b l rfl), .wrote l _⟩
      · refine ⟨(b.disconnect n).serveNext n, _, rfl, b.calls_disconnect n, .inr ?_,
          .broken l .reset⟩
        rw [standing_serveNext, standing_disconnect]
    · simp only [hg, ne_eq, not_false_eq_true, if_true, if_false]
      exact ⟨b.serveNext n, _, rfl, rfl, .inl (standing_serveNext b n), .refused .replaced⟩

/-- When an exchange is over, its leg has ended, and its member may lose its connection. -/
theorem settle_eq (b : Broker ω) (n : Nat) (t : Ticket) (o : Outcome) :
    ∃ a : Broker ω, b.settle n t o = a.setLeg t (.ended o) ∧ a.calls = b.calls ∧
      (a.standing = b.standing ∨ a.standing = b.standing.disconnect n) := by
  cases o with
  | ok raw => exact ⟨b.serveNext n, rfl, rfl, .inl (standing_serveNext b n)⟩
  | error s =>
    refine ⟨(b.disconnect n).serveNext n, rfl, b.calls_disconnect n, .inr ?_⟩
    rw [standing_serveNext, standing_disconnect]

/-- One call goes on. -/
def OneAdvances (b : Broker ω) (m : Move ω) (b' : Broker ω) : Prop :=
  ∃ c call refs p, b.mover? m = some c ∧ b.calls[c]? = some call ∧
    Advance b c m call.phase refs p ∧
    b'.calls = b.calls.set c { call with phase := p, refs := refs ++ call.refs }

/-- A call goes to another phase and comes across nobody. -/
theorem OneAdvances.of_setPhase {a : Broker ω} {p q : Phase ω} (hc : b.mover? m = some c)
    (hp : b.phase? c = some p) (ha : a.calls = b.calls) (h : Advance b c m p [] q) :
    OneAdvances b m (a.setPhase c q) := by
  obtain ⟨call, hcall, rfl⟩ := exists_call_of_phase hp
  exact ⟨c, call, [], q, hc, hcall, h, calls_setPhase_eq ha hcall q⟩

/-- A command of a call goes on. -/
theorem OneAdvances.of_setLeg {a : Broker ω} {t : Ticket} {legs : List Leg} {leg : Leg}
    {next : List Outcome → Program ω} {state : LegState} (hc : b.mover? m = some t.call)
    (hp : b.phase? t.call = some (.conversing legs next)) (hl : legs[t.leg]? = some leg)
    (ha : a.calls = b.calls) (hg : Goes t leg.command leg.state (Deed.event? ⟨b, m⟩) state) :
    OneAdvances b m (a.setLeg t state) := by
  have hp' : a.phase? t.call = some (.conversing legs next) := by rw [← hp, phase?, phase?, ha]
  simp only [setLeg, hp']
  exact .of_setPhase hc hp ha (.goes hl hg)

/-- A call makes the next step of its program. -/
theorem oneAdvances_of_run {p : Program ω} (hp : b.phase? c = some (.running p)) :
    OneAdvances b (.run c) (b.stepProgram c p) := by
  cases p with
  | done x => exact .of_setPhase rfl hp rfl .finishes
  | act a next =>
    obtain ⟨call, hcall, hph⟩ := exists_call_of_phase hp
    refine ⟨c, call, refsOf a (b.act a).1, .running (next (b.act a).1), rfl, hcall,
      by rw [hph]; exact .acts, ?_⟩
    simp only [stepProgram, setPhase, meet, calls_act, List.modify_eq_set_getElem?, hcall,
      Option.map_eq_map, Option.map_some, Option.getD_some, List.set_set,
      List.getElem?_set_self (List.getElem?_eq_some_iff.1 hcall).1]
  | wait w next =>
    cases w with
    | enter r turn => exact .of_setPhase rfl hp rfl .enters
    | converse commands => exact .of_setPhase rfl hp (calls_queueLegs ..) .converses
    | greet link =>
      simp only [stepProgram, beginWait]
      split
      · exact .of_setPhase (a := b.changeLink link _) rfl hp rfl .asks
      · rename_i hw
        refine .of_setPhase rfl hp rfl (.fails ?_)
        simp only [Deed.event?, hp, writing_of_not_writable hw]

/-- The exchange of a call comes to an end. -/
theorem oneAdvances_of_ended {a : Broker ω} {t : Ticket} {n l d : Nat} {o : Outcome}
    (ht : b.talking? t = some (n, l, d)) (hc : b.mover? m = some t.call) (ha : a.calls = b.calls)
    (he : Deed.event? ⟨b, m⟩ = some (.ended t l o)) : OneAdvances b m (a.setLeg t (.ended o)) := by
  -- the leg that talks is the one that the exchange ends for
  obtain ⟨legs, next, leg, hp, hl, -, hs⟩ := leg_of_talking? ht
  refine .of_setLeg hc hp hl ha ?_
  rw [he, hs]
  exact .ended l d o

/-- What a move does to the calls. -/
theorem calls_step (hm : b.step m = some b') :
    b.mover? m = none ∧ b'.calls = b.calls ∨
      (∃ program refs brings, m = .start program refs brings ∧
        b'.calls = b.calls ++ [⟨.running program, refs, brings⟩]) ∨
      OneAdvances b m b' := by
  cases makes_of_step hm with
  | starts program refs brings => exact .inr (.inl ⟨program, refs, brings, rfl, rfl⟩)
  | accepts | signals _ _ | passes _ => exact .inl ⟨rfl, rfl⟩
  -- a member may lose its connection without any call noticing
  | @releases n _ _ => exact .inl ⟨rfl, b.calls_disconnect n⟩
  | runs hp => exact .inr (.inr (oneAdvances_of_run hp))
  | @turns n t rest r turn next hn hp =>
    exact .inr (.inr (.of_setPhase (a := (b.take n turn).2.serveNext n) (mover?_serve hn) hp
      (b.calls_take n turn) .turns))
  | begins hn hp hl =>
    obtain ⟨a, state, e, ha, -, hg⟩ := beginExchange_eq hn hp hl
    rw [e]
    exact .inr (.inr (.of_setLeg (mover?_serve hn) hp hl ha hg))
  | @receives c leg n l d o rest ht hrec =>
    obtain ⟨a, e, ha, -⟩ := settle_eq (b.changeLink l fun _ => rest) n ⟨c, leg⟩ o
    rw [e]
    refine .inr (.inr (oneAdvances_of_ended ht rfl ha ?_))
    rw [Deed.event?_receive ht, hearing, hrec, Option.map_some]
  | @supersedes c leg n l d _ ht _ _ =>
    have he := Deed.event?_supersede ht
    exact .inr (.inr (oneAdvances_of_ended (a := b.serveNext n) ht rfl rfl he))
  | @expires c leg n l d ht _ =>
    obtain ⟨a, e, ha, -⟩ := settle_eq b n ⟨c, leg⟩ (.error .timedOut)
    rw [e]
    exact .inr (.inr (oneAdvances_of_ended ht rfl ha (Deed.event?_expire ht)))
  | hears hp hrec =>
    refine .inr (.inr (.of_setPhase (a := b.changeLink _ _) rfl hp rfl (.hears ?_)))
    simp only [Deed.event?, hp, hearing, hrec, Option.map_some]
  | givesUp hp _ =>
    refine .inr (.inr (.of_setPhase rfl hp rfl (.hears ?_)))
    simp only [Deed.event?, hp]
  | @abandons c call hcall _ _ =>
    have hp : b.phase? c = some call.phase := by rw [phase?, hcall, Option.map_some]
    exact .inr (.inr (.of_setPhase (a := b.withdraw c) rfl hp rfl .leaves))

/-- Calls are never forgotten. -/
theorem calls_length_step (hm : b.step m = some b') : b.calls.length ≤ b'.calls.length := by
  rcases calls_step hm with ⟨-, h⟩ | ⟨_, _, _, -, h⟩ | ⟨_, _, _, _, -, -, -, h⟩ <;> simp [h]

/-- A call that there is stays the call it is. -/
theorem call_step {call : Call ω} (hm : b.step m = some b') (hc : b.calls[c]? = some call) :
    ∃ refs p, b'.calls[c]? = some { call with phase := p, refs := refs ++ call.refs } ∧
      (p = call.phase ∧ refs = [] ∨ b.mover? m = some c ∧ Advance b c m call.phase refs p) := by
  rcases calls_step hm with ⟨-, h⟩ | ⟨program, refs, brings, -, h⟩ |
    ⟨k, call', refs, p, hk, hc', ha, h⟩
  · exact ⟨[], call.phase, by rw [h, hc]; rfl, .inl ⟨rfl, rfl⟩⟩
  · refine ⟨[], call.phase, ?_, .inl ⟨rfl, rfl⟩⟩
    rw [h, List.getElem?_append_left (List.getElem?_eq_some_iff.1 hc).1, hc]
    rfl
  · by_cases hkc : k = c
    · subst hkc
      cases hc.symm.trans hc'
      exact ⟨refs, p, by rw [h, List.getElem?_set_self (List.getElem?_eq_some_iff.1 hc).1],
        .inr ⟨hk, ha⟩⟩
    · exact ⟨[], call.phase, by rw [h, List.getElem?_set_ne hkc, hc]; rfl, .inl ⟨rfl, rfl⟩⟩

/-- A call that there was not has just been started. -/
theorem call_of_step {call : Call ω} (hm : b.step m = some b') (hc : b'.calls[c]? = some call) :
    (∃ call', b.calls[c]? = some call') ∨
      c = b.calls.length ∧ ∃ program refs brings, m = .start program refs brings ∧
        call = ⟨.running program, refs, brings⟩ := by
  rcases Nat.lt_or_ge c b.calls.length with hlt | hge
  · exact .inl ⟨_, List.getElem?_eq_getElem hlt⟩
  · rcases calls_step hm with ⟨-, h⟩ | ⟨program, refs, brings, rfl, h⟩ |
      ⟨k, call', refs, p, -, -, -, h⟩
    · rw [h, List.getElem?_eq_none hge] at hc
      cases hc
    · rw [h] at hc
      rcases getElem?_concat_cases hc with ⟨hlt, -⟩ | ⟨rfl, rfl⟩
      · omega
      · exact .inr ⟨rfl, program, refs, brings, rfl, rfl⟩
    · rw [h, List.getElem?_eq_none (by rw [List.length_set]; exact hge)] at hc
      cases hc

/-- A call that is in some phase stays in it, or makes a move. -/
theorem phase_step {p : Phase ω} (hm : b.step m = some b') (hp : b.phase? c = some p) :
    ∃ q, b'.phase? c = some q ∧
      (q = p ∨ b.mover? m = some c ∧ ∃ refs, Advance b c m p refs q) := by
  obtain ⟨call, hcall, rfl⟩ := exists_call_of_phase hp
  obtain ⟨refs, q, hq, h⟩ := call_step hm hcall
  exact ⟨q, by rw [phase?, hq]; rfl, h.imp And.left fun h => ⟨h.1, refs, h.2⟩⟩

/-- A call that makes a move goes to another phase in it. -/
theorem advance_of_mover {p : Phase ω} (hm : b.step m = some b') (hp : b.phase? c = some p)
    (hc : b.mover? m = some c) :
    ∃ q refs, b'.phase? c = some q ∧ Advance b c m p refs q := by
  obtain ⟨call, hcall, rfl⟩ := exists_call_of_phase hp
  rcases calls_step hm with ⟨hnone, -⟩ | ⟨program, refs, brings, rfl, -⟩ |
    ⟨k, call', refs, q, hk, hc', ha, h⟩
  · cases hnone.symm.trans hc
  · cases hc
    cases (phase?_length b).symm.trans hp
  · obtain rfl := Option.some.inj (hk.symm.trans hc)
    cases hcall.symm.trans hc'
    refine ⟨q, refs, ?_, ha⟩
    rw [phase?, h, List.getElem?_set_self (List.getElem?_eq_some_iff.1 hcall).1]
    rfl

/-- A call that there is not makes a move only by being started. -/
theorem start_of_mover (hm : b.step m = some b') (hp : b.phase? c = none)
    (hc : b.mover? m = some c) : ∃ program refs brings, m = .start program refs brings := by
  rcases calls_step hm with ⟨hnone, -⟩ | ⟨program, refs, brings, rfl, -⟩ |
    ⟨k, call, refs, q, hk, hcall, -, -⟩
  · cases hnone.symm.trans hc
  · exact ⟨program, refs, brings, rfl⟩
  · obtain rfl := Option.some.inj (hk.symm.trans hc)
    rw [phase?, hcall] at hp
    cases hp

/-! ## The commands of a call -/

theorem outcome?_eq_some {leg : Leg} {o : Outcome} :
    leg.outcome? = some o ↔ leg.state = .ended o := by
  obtain ⟨r, command, state⟩ := leg
  cases state <;> simp [Leg.outcome?]

/-- The outcomes of commands are those of its legs. -/
theorem getElem?_outcomes {legs : List Leg} {outcomes : List Outcome}
    (h : legs.mapM Leg.outcome? = some outcomes) (i : Nat) :
    outcomes[i]? = legs[i]?.bind Leg.outcome? := by
  induction legs generalizing outcomes i with
  | nil =>
    cases h
    rfl
  | cons leg legs ih =>
    simp only [List.mapM_cons, Option.bind_eq_bind, Option.bind_eq_some_iff, Option.pure_def,
      Option.some.injEq] at h
    obtain ⟨o, ho, os, hos, rfl⟩ := h
    cases i with
    | zero => exact ho.symm
    | succ i => exact ih hos i

theorem leg_of_outcome {legs : List Leg} {outcomes : List Outcome} {i : Nat} {o : Outcome}
    (h : legs.mapM Leg.outcome? = some outcomes) (ho : outcomes[i]? = some o) :
    ∃ leg, legs[i]? = some leg ∧ leg.state = .ended o := by
  rw [getElem?_outcomes h, Option.bind_eq_some_iff] at ho
  obtain ⟨leg, hl, ho⟩ := ho
  exact ⟨leg, hl, outcome?_eq_some.1 ho⟩

/-- Commands that are all over have an outcome each. -/
theorem outcome_of_leg {legs : List Leg} {outcomes : List Outcome} {i : Nat} {leg : Leg}
    (h : legs.mapM Leg.outcome? = some outcomes) (hl : legs[i]? = some leg) :
    ∃ o, outcomes[i]? = some o ∧ leg.state = .ended o := by
  obtain ⟨o, ho⟩ := Option.ne_none_iff_exists'.1
    (Leg.outcome?_ne_none h leg (List.mem_of_getElem? hl))
  refine ⟨o, ?_, outcome?_eq_some.1 ho⟩
  rw [getElem?_outcomes h, hl]
  exact ho

theorem phaseOf_eq_conversing {legs legs' : List Leg} {next next' : List Outcome → Program ω}
    (h : phaseOf legs next = .conversing legs' next') : legs' = legs := by
  unfold phaseOf at h
  split at h <;> cases h
  rfl

/-- Commands that are on their way after a move were sent in it, or one of them has gone on. -/
theorem legs_of_advance {p : Phase ω} {refs : List Ref} {legs : List Leg}
    {next : List Outcome → Program ω} (h : Advance b c m p refs (.conversing legs next)) :
    (∀ leg ∈ legs, leg.state = .queued) ∨
      ∃ legs' next' i leg state, p = .conversing legs' next' ∧ legs'[i]? = some leg ∧
        Goes ⟨c, i⟩ leg.command leg.state (Deed.event? ⟨b, m⟩) state ∧
        legs = legs'.modify i fun l => { l with state } := by
  generalize hq : Phase.conversing legs next = q at h
  cases h with
  -- commands that have just been sent are all queued
  | converses =>
    obtain rfl := phaseOf_eq_conversing hq.symm
    refine .inl fun leg hleg => ?_
    obtain ⟨x, -, rfl⟩ := List.mem_map.1 hleg
    rfl
  | goes hl hg => exact .inr ⟨_, _, _, _, _, rfl, hl, hg, phaseOf_eq_conversing hq.symm⟩
  | _ => cases hq

/-- A reply has been read in this move, or before. -/
theorem Replied.of_step {t : Ticket} {raw : Bytes} (hm : b.step m = some b')
    (h : b'.Replied t raw) :
    b.Replied t raw ∨ ∃ l, Deed.event? ⟨b, m⟩ = some (.ended t l (.ok raw)) := by
  obtain ⟨legs, next, leg, hp, hl, hs⟩ := h
  obtain ⟨call, hcall, hph⟩ := exists_call_of_phase hp
  rcases call_of_step hm hcall with ⟨call', hcall'⟩ | ⟨-, program, refs, brings, -, rfl⟩
  · obtain ⟨p, hp'⟩ : ∃ p, b.phase? t.call = some p := ⟨_, by rw [phase?, hcall']; rfl⟩
    obtain ⟨q, hq, rfl | ⟨-, refs, ha⟩⟩ := phase_step hm hp'
    · rw [Option.some.inj (hq.symm.trans hp)] at hp'
      exact .inl ⟨legs, next, leg, hp', hl, hs⟩
    · rw [Option.some.inj (hq.symm.trans hp)] at ha
      rcases legs_of_advance ha with hall | ⟨legs', next', i, leg', state, rfl, hl', hg, rfl⟩
      · rw [hall leg (List.mem_of_getElem? hl)] at hs
        cases hs
      · by_cases hi : i = t.leg
        · subst hi
          rw [List.getElem?_modify_eq, hl'] at hl
          cases hl
          cases hs
          generalize Deed.event? ⟨b, m⟩ = e, leg'.state = before at hg
          cases hg with
          | ended l d o => exact .inr ⟨l, rfl⟩
        · rw [List.getElem?_modify_ne _ _ hi] at hl
          exact .inl ⟨legs', next', leg, hp', hl, hs⟩
  · cases hph

/-! ## The steps of a call -/

end Broker

/-- Each reply among the outcomes of a call's commands has been read. -/
def AllHeard {ω : Type} (past : List (Deed ω)) (c : Nat) (outcomes : List Outcome) : Prop :=
  ∀ i raw, outcomes[i]? = some (.ok raw) →
    ∃ d ∈ past, ∃ l, d.event? = some (.ended ⟨c, i⟩ l (.ok raw))

/-- The answer of a step of a call was given in what has happened. -/
def Step.Made {ω : Type} (past : List (Deed ω)) (c : Nat) : Step → Prop
  | .act a x => ∃ d ∈ past, d.move = .run c ∧
      (∃ next, d.before.phase? c = some (.running (.act a next))) ∧ (d.before.act a).1 = x
  | .wait (.enter r turn) x => ∃ d ∈ past, ∃ n, d.move = .serve n ∧
      d.before.mover? d.move = some c ∧
      (∃ next, d.before.phase? c = some (.entering r turn next)) ∧ (d.before.take n turn).1 = x
  | .wait (.converse commands) outcomes => AllHeard past c outcomes ∧
      ∃ d ∈ past, ∃ next, d.before.left? c = some (.wait (.converse commands) next)
  | .wait (.greet link) o => ∃ d ∈ past, d.event? = some (.ended ⟨c, 0⟩ link o)

theorem Step.Made.mono {ω : Type} {past past' : List (Deed ω)} {c : Nat} {e : Step}
    (h : e.Made past c) (hs : past ⊆ past') : e.Made past' c := by
  cases e with
  | act a x =>
    obtain ⟨d, hd, h⟩ := h
    exact ⟨d, hs hd, h⟩
  | wait w x =>
    cases w with
    | enter r turn | greet link =>
      obtain ⟨d, hd, h⟩ := h
      exact ⟨d, hs hd, h⟩
    | converse commands =>
      obtain ⟨hheard, d, hd, h⟩ := h
      refine ⟨fun i raw hi => ?_, d, hs hd, h⟩
      obtain ⟨d', hd', h'⟩ := hheard i raw hi
      exact ⟨d', hs hd', h'⟩

namespace Broker

variable {ω : Type} {b b' : Broker ω} {m : Move ω} {c : Nat} {past : List (Deed ω)}

/-- Whatever reply a command has come to, has been read. -/
def AllRead (past : List (Deed ω)) (b : Broker ω) : Prop :=
  ∀ t raw, b.Replied t raw → ∃ d ∈ past, ∃ l, d.event? = some (.ended t l (.ok raw))

theorem AllRead.step (h : AllRead past b) (hm : b.step m = some b') :
    AllRead (past ++ [⟨b, m⟩]) b' := by
  intro t raw ht
  rcases ht.of_step hm with ht | ⟨l, hl⟩
  · obtain ⟨d, hd, hl⟩ := h t raw ht
    exact ⟨d, List.mem_append_left _ hd, hl⟩
  · exact ⟨_, List.mem_append_right _ (List.mem_singleton_self _), l, hl⟩

/-- What a call has left to do after a move: the same, or what follows the answer to a step. -/
def Leaves (past : List (Deed ω)) (c : Nat) (p : Program ω) (left : Option (Program ω)) : Prop :=
  left = some p ∨ ∃ e q, left = some q ∧ p.Leads [e] q ∧ e.Made past c

/-- A command that goes on is still the same command. -/
theorem commands_modify (legs : List Leg) (i : Nat) (state : LegState) :
    (legs.modify i fun l => { l with state }).map (fun l => (l.member, l.command)) =
      legs.map fun l => (l.member, l.command) := by
  apply List.ext_getElem?
  intro j
  rw [List.getElem?_map, List.getElem?_map]
  by_cases hj : i = j
  · subst hj
    rw [List.getElem?_modify_eq]
    rcases legs[i]? with _ | leg <;> rfl
  · rw [List.getElem?_modify_ne _ _ hj]

/-- A call whose commands go on has the same left to do, or has got its replies. -/
theorem leaves_of_goes {legs : List Leg} {next : List Outcome → Program ω} {i : Nat} {leg : Leg}
    {state : LegState} (hr : AllRead past b) (hp : b.phase? c = some (.conversing legs next))
    (hl : legs[i]? = some leg)
    (hg : Goes ⟨c, i⟩ leg.command leg.state (Deed.event? ⟨b, m⟩) state) :
    Leaves (past ++ [⟨b, m⟩]) c
      (.wait (.converse (legs.map fun l => (l.member, l.command))) next)
      (phaseOf (legs.modify i fun l => { l with state }) next).left? := by
  rcases ho : (legs.modify i fun l => { l with state }).mapM Leg.outcome? with _ | outcomes
  · simp only [phaseOf, ho, Phase.left?]
    exact .inl (congrArg (fun cs => some (Program.wait (.converse cs) next)) (commands_modify ..))
  · simp only [phaseOf, ho, Phase.left?]
    refine .inr ⟨.wait (.converse _) outcomes, _, rfl, .wait (.refl _), fun j raw hj => ?_, ⟨b, m⟩,
      List.mem_append_right _ (List.mem_singleton_self _), next, left?_of_phase hp⟩
    obtain ⟨leg', hleg', hs⟩ := leg_of_outcome ho hj
    by_cases hi : i = j
    · subst hi
      rw [List.getElem?_modify_eq, hl] at hleg'
      cases hleg'
      cases hs
      generalize he : Deed.event? ⟨b, m⟩ = e, leg.state = before at hg
      cases hg with
      | ended l d o => exact ⟨_, List.mem_append_right _ (List.mem_singleton_self _), l, he⟩
    · rw [List.getElem?_modify_ne _ _ hi] at hleg'
      -- the reply of another command was read before
      obtain ⟨d, hd, l, hl⟩ := hr ⟨c, j⟩ raw ⟨legs, next, leg', hp, hleg', hs⟩
      exact ⟨d, List.mem_append_left _ hd, l, hl⟩

/-- A call that moves on has the same left to do, or makes a step of its program. -/
theorem leaves_of_advance {p q : Phase ω} {r : Program ω} {refs : List Ref} (hr : AllRead past b)
    (hp : b.phase? c = some p) (hl : p.left? = some r) (hc : b.mover? m = some c)
    (ha : Advance b c m p refs q) :
    m = .abandon c ∧ q = .abandoned ∨ Leaves (past ++ [⟨b, m⟩]) c r q.left? := by
  have hlast : (⟨b, m⟩ : Deed ω) ∈ past ++ [⟨b, m⟩] :=
    List.mem_append_right _ (List.mem_singleton_self _)
  cases ha with
  | leaves => exact .inl ⟨rfl, rfl⟩
  | finishes | enters | asks =>
    cases hl
    exact .inr (.inl rfl)
  | @acts a next =>
    cases hl
    exact .inr (.inr ⟨.act a (b.act a).1, _, rfl, .act (.refl _), _, hlast, rfl, ⟨next, hp⟩, rfl⟩)
  | @converses commands next =>
    cases hl
    rcases hm : (commands.map fun (r, command) => (⟨r, command, .queued⟩ : Leg)).mapM Leg.outcome?
      with _ | outcomes
    · refine .inr (.inl ?_)
      have hcommands : (commands.map fun (r, command) => (⟨r, command, .queued⟩ : Leg)).map
          (fun l => (l.member, l.command)) = commands := by
        rw [List.map_map]
        exact List.map_id commands
      simp only [phaseOf, hm, Phase.left?]
      exact congrArg (fun cs => some (Program.wait (.converse cs) next)) hcommands
    · simp only [phaseOf, hm, Phase.left?]
      refine .inr (.inr ⟨.wait (.converse commands) outcomes, _, rfl, .wait (.refl _),
        fun i raw hi => ?_, _, hlast, next, left?_of_phase hp⟩)
      -- commands that have just been sent on their way have no outcomes
      obtain ⟨leg, hleg, hs⟩ := leg_of_outcome hm hi
      rw [List.getElem?_map, Option.map_eq_some_iff] at hleg
      obtain ⟨x, -, rfl⟩ := hleg
      cases hs
  | fails he | hears he =>
    cases hl
    exact .inr (.inr ⟨.wait (.greet _) _, _, rfl, .wait (.refl _), _, hlast, he⟩)
  | @turns n r turn next =>
    cases hl
    exact .inr (.inr ⟨.wait (.enter r turn) (b.take n turn).1, _, rfl, .wait (.refl _), _, hlast, n,
      rfl, hc, ⟨next, hp⟩, rfl⟩)
  | goes hleg hg =>
    cases hl
    exact .inr (leaves_of_goes hr hp hleg hg)

/-- A call that there is makes at most one step of its program in a move, unless it is given up. -/
theorem left?_step {p : Program ω} (hr : AllRead past b) (hm : b.step m = some b')
    (hl : b.left? c = some p) :
    m = .abandon c ∧ b'.phase? c = some .abandoned ∨
      Leaves (past ++ [⟨b, m⟩]) c p (b'.left? c) := by
  obtain ⟨ph, hp, hl⟩ := Option.bind_eq_some_iff.1 hl
  obtain ⟨q, hq, rfl | ⟨hc, refs, ha⟩⟩ := phase_step hm hp
  · exact .inr (.inl (by rw [left?_of_phase hq, hl]))
  · rw [left?_of_phase hq]
    rcases leaves_of_advance hr hp hl hc ha with ⟨hm, rfl⟩ | h
    · exact .inl ⟨hm, hq⟩
    · exact .inr h

/-- Who is given up has gone away. -/
theorem phase?_of_abandon (hm : b.step (.abandon c) = some b') :
    b'.phase? c = some .abandoned := by
  cases makes_of_step hm with
  | abandons hc _ _ =>
    exact phase?_setPhase_self (b := b.withdraw c) (congrArg (Option.map Call.phase) hc)

/-- Whoever has been given up stays so. -/
theorem abandoned_step (hm : b.step m = some b') (hp : b.phase? c = some .abandoned) :
    b'.phase? c = some .abandoned := by
  obtain ⟨q, hq, rfl | ⟨-, refs, ha⟩⟩ := phase_step hm hp
  · exact hq
  · cases ha
    exact hq

/-! ## Runs -/

variable {allowed : Broker ω → Move ω → Prop} {a : Broker ω} {timeout : Nat}

/-- One run after the other is a run. -/
theorem Run.append {past' : List (Deed ω)} (ha : Run (fun _ => allowed) b past a)
    (hr : Run (fun _ => allowed) a past' b') : Run (fun _ => allowed) b (past ++ past') b' := by
  induction hr with
  | nil =>
    rw [List.append_nil]
    exact ha
  | snoc m _ hm hstep ih =>
    rw [← List.append_assoc]
    exact .snoc m ih hm hstep

/-- The first move of a run is made where the run begins. -/
theorem Run.of_cons {past' : List (Deed ω)} {d : Deed ω}
    (hr : Run (fun _ => allowed) a (d :: past') b) :
    a = d.before ∧ ∃ b', d.before.step d.move = some b' ∧ Run (fun _ => allowed) b' past' b := by
  have hsplit : Run (fun _ => allowed) a ([] ++ [d] ++ past') b := hr
  obtain ⟨b', hfirst, hrest⟩ := hsplit.of_append
  obtain ⟨hnone, -, hm⟩ := hfirst.of_snoc
  refine ⟨?_, b', hm, hrest⟩
  -- the run up to the first move is empty, so it ends where it began
  generalize he : ([] : List (Deed ω)) = none at hnone
  cases hnone with
  | nil => rfl
  | snoc => simp at he

/-- A run can be cut before any move in it. -/
theorem Run.cut {d : Deed ω} (hr : Run (fun _ => allowed) a past b) (hd : d ∈ past) :
    ∃ past₁ past₂, past = past₁ ++ d :: past₂ ∧ Run (fun _ => allowed) a past₁ d.before ∧
      Run (fun _ => allowed) d.before (d :: past₂) b := by
  obtain ⟨past₁, past₂, rfl⟩ := List.append_of_mem hd
  obtain ⟨x, hx, hb⟩ := hr.of_append
  obtain ⟨rfl, -⟩ := hb.of_cons
  exact ⟨past₁, past₂, rfl, hx, hb⟩

/-- A run is one up to a move, the move, and one after it. -/
theorem Run.at_move {past₁ past₂ : List (Deed ω)} {d : Deed ω}
    (hr : Run (fun _ => allowed) a (past₁ ++ d :: past₂) b) :
    ∃ b', Run (fun _ => allowed) a past₁ d.before ∧ d.before.step d.move = some b' ∧
      Run (fun _ => allowed) a (past₁ ++ [d]) b' ∧ Run (fun _ => allowed) b' past₂ b := by
  rw [List.append_cons] at hr
  obtain ⟨b', hfirst, hrest⟩ := hr.of_append
  obtain ⟨hbefore, -, hm⟩ := hfirst.of_snoc
  exact ⟨b', hbefore, hm, hfirst, hrest⟩

/-- A run can be cut before and after any move in it. -/
theorem Run.around {d : Deed ω} (hr : Run (fun _ => allowed) a past b) (hd : d ∈ past)
    (hm : d.before.step d.move = some b') :
    ∃ past₁ past₂, past = past₁ ++ d :: past₂ ∧ Run (fun _ => allowed) a past₁ d.before ∧
      Run (fun _ => allowed) a (past₁ ++ [d]) b' ∧ Run (fun _ => allowed) b' past₂ b := by
  obtain ⟨past₁, past₂, rfl⟩ := List.append_of_mem hd
  obtain ⟨x, hbefore, hx, hfirst, hrest⟩ := hr.at_move
  obtain rfl := Option.some.inj (hm.symm.trans hx)
  exact ⟨past₁, past₂, rfl, hbefore, hfirst, hrest⟩

/-- A run can be cut before its move of a given number. -/
theorem Run.split {n : Nat} {d : Deed ω} (hr : Run (fun _ => allowed) a past b)
    (hd : d ∈ past[n]?) :
    Run (fun _ => allowed) a (past.take n) d.before ∧
      Run (fun _ => allowed) d.before (past.drop n) b := by
  obtain ⟨hlt, rfl⟩ := List.getElem?_eq_some_iff.1 hd
  rw [← List.take_append_drop n past] at hr
  obtain ⟨x, h₁, h₂⟩ := hr.of_append
  have hx : x = past[n].before := by
    rw [List.drop_eq_getElem_cons hlt] at h₂
    exact h₂.of_cons.1
  exact ⟨hx ▸ h₁, hx ▸ h₂⟩

/-- Calls are never forgotten in a run. -/
theorem Run.calls_length (hr : Run (fun _ => allowed) a past b) :
    a.calls.length ≤ b.calls.length := by
  induction hr with
  | nil => exact Nat.le_refl _
  | snoc m _ _ hm ih => exact Nat.le_trans ih (calls_length_step hm)

/-- Of two moves in a run one was made before the other. -/
theorem Run.between {d d' : Deed ω} (hr : Run (fun _ => allowed) a past b) (hd : d ∈ past)
    (hd' : d' ∈ past) :
    (∃ p q, Run (fun _ => allowed) a p d.before ∧ Run (fun _ => allowed) d.before q d'.before) ∨
      ∃ p q, Run (fun _ => allowed) a p d'.before ∧
        Run (fun _ => allowed) d'.before q d.before := by
  obtain ⟨past₁, past₂, rfl, h₁, h₂⟩ := hr.cut hd
  rcases List.mem_append.1 hd' with hd' | hd'
  · obtain ⟨p, q, rfl, hp, hq⟩ := h₁.cut hd'
    exact .inr ⟨p, _, hp, hq⟩
  · obtain ⟨p, q, -, hp, -⟩ := h₂.cut hd'
    exact .inl ⟨past₁, p, h₁, hp⟩

/-- Whoever has been given up stays so to the end. -/
theorem Run.abandoned (hr : Run (fun _ => allowed) a past b)
    (ha : a.phase? c = some .abandoned) : b.phase? c = some .abandoned := by
  induction hr with
  | nil => exact ha
  | snoc m _ _ hm ih => exact abandoned_step hm ih

/-- In a run from the beginning each reply was read. -/
theorem Run.allRead (hr : Run (fun _ => allowed) (fresh timeout) past b) : AllRead past b := by
  induction hr with
  | nil =>
    rintro t raw ⟨legs, next, leg, hp, -⟩
    cases hp
  | snoc m _ _ hm ih => exact ih.step hm

/-- A call has come from a program to what is left of it, by steps that have been made. -/
def HasCome (past : List (Deed ω)) (c : Nat) (p : Program ω) (b : Broker ω) : Prop :=
  ∃ steps q, b.left? c = some q ∧ p.Leads steps q ∧ ∀ e ∈ steps, e.Made past c

/-- A call that has come some way comes no other, unless it is given up. -/
theorem HasCome.step {p : Program ω} (h : HasCome past c p b) (hr : AllRead past b)
    (hm : b.step m = some b') :
    b'.phase? c = some .abandoned ∨ HasCome (past ++ [⟨b, m⟩]) c p b' := by
  obtain ⟨steps, q, hq, hpath, hmade⟩ := h
  rcases left?_step hr hm hq with ⟨-, hgone⟩ | hsame | ⟨e, q', hq', hpath', he⟩
  · exact .inl hgone
  · exact .inr ⟨steps, q, hsame, hpath, fun e he => (hmade e he).mono (List.subset_append_left ..)⟩
  · refine .inr ⟨steps ++ [e], q', hq', hpath.trans hpath', fun e' he' => ?_⟩
    rcases List.mem_append.1 he' with h | h
    · exact (hmade e' h).mono (List.subset_append_left ..)
    · rw [List.mem_singleton.1 h]
      exact he

/-- What is left of a call at some time is later either given up, or what its program comes to by
steps that have been made. -/
theorem Run.leads {past' : List (Deed ω)} {p : Program ω}
    (ha : Run (fun _ => allowed) (fresh timeout) past a) (hr : Run (fun _ => allowed) a past' b)
    (hl : a.left? c = some p) :
    b.phase? c = some .abandoned ∨ HasCome (past ++ past') c p b := by
  -- by induction on the moves: each makes the path longer by one step at most
  induction hr with
  | nil => exact .inr ⟨[], p, hl, .refl p, List.forall_mem_nil _⟩
  | @snoc past' b₁ b₂ m hr hm hstep ih =>
    rcases ih with hgone | hcome
    · exact .inl (abandoned_step hstep hgone)
    · rw [← List.append_assoc]
      exact hcome.step (ha.append hr).allRead hstep

/-- What a call has left when it makes an act, it does not have left again. -/
theorem Run.left?_ne_of_act {d : Deed ω} {act : Act} {next : act.Answer → Program ω}
    (hr : Run (fun _ => allowed) (fresh timeout) past b) (hd : d ∈ past) (hm : d.move = .run c)
    (hp : d.before.phase? c = some (.running (.act act next))) :
    b.left? c ≠ some (.act act next) := by
  intro hleft
  obtain ⟨past₁, past₂, rfl⟩ := List.append_of_mem hd
  obtain ⟨b', -, hstep, hafter, hrest⟩ := hr.at_move
  have hnext : b'.left? c = some (next (d.before.act act).1) := by
    rw [hm] at hstep
    obtain ⟨p', refs, hp', ha⟩ := advance_of_mover hstep hp rfl
    cases ha with
    | acts => exact left?_of_phase hp'
  obtain hgone | ⟨steps, q, hq, hpath, -⟩ := hafter.leads hrest hnext
  · rw [left?_of_phase hgone] at hleft
    cases hleft
  · cases hleft.symm.trans hq
    exact absurd (Program.Leads.act hpath).eq_nil (List.cons_ne_nil _ _)

/-- Each act of a program is made once. -/
theorem Run.eq_of_act {d e : Deed ω} {act : Act} {next : act.Answer → Program ω}
    (hr : Run (fun _ => allowed) (fresh timeout) past b) (hd : d ∈ past) (he : e ∈ past)
    (hdm : d.move = .run c) (hdp : d.before.phase? c = some (.running (.act act next)))
    (hem : e.move = .run c) (hep : e.before.phase? c = some (.running (.act act next))) : d = e := by
  obtain ⟨p, q, rfl, hbefore, -⟩ := hr.cut hd
  rcases List.mem_append.1 he with he | he
  · exact absurd (left?_of_phase hdp) (hbefore.left?_ne_of_act he hem hep)
  rcases List.mem_cons.1 he with rfl | he
  · rfl
  · obtain ⟨q₁, q₂, rfl⟩ := List.append_of_mem he
    rw [← List.cons_append, ← List.append_assoc] at hr
    obtain ⟨-, hbefore, -⟩ := hr.at_move
    have hmem : d ∈ p ++ d :: q₁ := List.mem_append_right _ List.mem_cons_self
    exact absurd (left?_of_phase hep) (hbefore.left?_ne_of_act hmem hdm hdp)

/-- In a run from the beginning each call goes the ways of the program that it was started with. -/
theorem Run.hasCome {f : Nat → Program ω}
    (hr : Run (fun _ => allowed) (fresh timeout) past b)
    (hs : ∀ b p refs brings, allowed b (.start p refs brings) → p = f b.calls.length)
    {q : Program ω} (hq : b.left? c = some q) : HasCome past c (f c) b := by
  -- by induction on the moves; a call that was given up has nothing left, so there is one to go on
  induction hr generalizing q with
  | nil => cases hq
  | @snoc past b b' m hr ha hm ih =>
    obtain ⟨phase, hphase, hleft⟩ := Option.bind_eq_some_iff.1 hq
    have hnot : b'.phase? c ≠ some .abandoned := by
      rintro hgone
      obtain rfl := Option.some.inj (hphase.symm.trans hgone)
      cases hleft
    obtain ⟨call, hcall, rfl⟩ := exists_call_of_phase hphase
    rcases call_of_step hm hcall with ⟨call', hcall'⟩ | ⟨rfl, p, refs, brings, rfl, rfl⟩
    · have hphase' : b.phase? c = some call'.phase := by rw [phase?, hcall']; rfl
      rcases hp : call'.phase.left? with _ | p
      · -- whoever has gone away does not come back
        rw [Phase.left?_eq_none.1 hp] at hphase'
        exact absurd (abandoned_step hm hphase') hnot
      · have hcome := ih ((left?_of_phase hphase').trans hp)
        exact (hcome.step hr.allRead hm).resolve_left hnot
    -- the call has just been started, and has its whole program to go
    · obtain rfl := hs _ _ _ _ ha
      cases hleft
      exact ⟨[], _, hq, .refl _, List.forall_mem_nil _⟩

end Broker

end WorkerBroker
