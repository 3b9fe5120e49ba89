import WorkerBroker.Proofs.Course
import WorkerBroker.Proofs.Generations
import WorkerBroker.Proofs.Progress
/-!
# Programs that keep the broker steady

`Proofs.Calls` follows each call with its burden, and for that it has to know what the call was asked
to do. Less is needed to see that the registry and the queues are in order at any time: that a
program turns only to members that it has come across, that it gives the id of the primary to a
member of that kind alone, and that it puts nobody back into the registry (`Program.Regular`). Who
obeys the discipline of `Proofs.Conduct` is regular (`Program.Obeys.regular`).

`Broker.Steady` is what holds at any time when nothing but regular programs is started, whatever
their results are about. `Broker.Steady.step` shows that every move keeps it.
-/

namespace WorkerBroker

/-! ## Regular programs -/

/-- The primary alone has its id. -/
def Identity.IsProper (who : Identity) : Prop :=
  who.1 = .primary ↔ who.2 = primaryId

/-- An act that gives no id to a member that must not have it. -/
def Act.IsProper : Act → Prop
  | .enrol kind id _ => Identity.IsProper (kind, id)
  | .reinstate _ => False
  | _ => True

/-- The members that a program waits for. -/
def Wait.members : Wait → List Ref
  | .enter r _ => [r]
  | .converse commands => commands.map Prod.fst
  | .greet _ => []

namespace Program

variable {ω α : Type}

/-- The program turns to no member but those that it has come across, and its acts are proper. -/
def Regular : List Ref → Program ω → Prop
  | _, done _ => True
  | refs, act a next => a.IsProper ∧ (∀ r ∈ a.member?, r ∈ refs) ∧
      ∀ x, a.Plausible x → Regular (Broker.refsOf a x ++ refs) (next x)
  | refs, wait w next => (∀ r ∈ w.members, r ∈ refs) ∧ ∀ x, Regular refs (next x)

variable {refs : List Ref}

/-- A program whose result is put in other words is as regular. -/
theorem Regular.map {p : Program α} (h : p.Regular refs) (f : α → ω) :
    (p.bind fun x => done (f x)).Regular refs := by
  induction p generalizing refs with
  | done x => trivial
  | act a next ih => exact ⟨h.1, h.2.1, fun x hx => ih x (h.2.2 x hx)⟩
  | wait w next ih => exact ⟨h.1, fun x => ih x (h.2 x)⟩

end Program

/-! ### The discipline and what it comes to -/

/-- Whoever is to be placed may have the id that it is to be placed under. -/
def Burden.IsProper : Burden → Prop
  | .carries _ (some who) | .found _ _ who => who.IsProper
  | .announced r _ _ => Identity.IsProper (r.kind, r.id)
  | _ => True

namespace Burden

variable {ω : Type} {licence : Licence ω} {β β' : Burden}

theorem IsFor.isProper {l : Nat} {who : Identity} (h : β.IsFor l who) (hβ : β.IsProper) :
    who.IsProper := by
  rcases h with rfl | ⟨r, rfl⟩ <;> exact hβ

theorem Acts.isProper {a : Act} {x : a.Answer} (h : β.Acts licence a x β') (hβ : β.IsProper) :
    a.IsProper ∧ β'.IsProper := by
  cases h with
  | enrol hf | displace hf => exact ⟨hf.isProper hβ, trivial⟩
  | announce hf => rcases hf with ⟨-, rfl⟩ | rfl <;> exact ⟨trivial, hβ⟩
  | lookUp _ | miss | hit | roster | depose => exact ⟨trivial, hβ⟩
  | strike | strikeClosed | dismiss _ | advance _ | discard | reject => exact ⟨trivial, trivial⟩

theorem Turns.isProper {r : Ref} {t : Turn} {x : t.Answer} (h : β.Turns licence r t x β')
    (hβ : β.IsProper) : β'.IsProper := by
  cases h with
  | handedBack | look => exact hβ
  | taken | superseded | shut | depose | retire | keep => trivial

/-- What a fresh connection says it is, it may be. -/
theorem isProper_afterGreeting (l : Nat) (o : Outcome) : (afterGreeting l o).IsProper := by
  cases o with
  | error s => trivial
  | ok raw =>
    rw [afterGreeting]
    rcases hi : identity? (.ok raw) with _ | who
    · trivial
    · obtain ⟨hkind, hid⟩ := identity?_eq_some hi
      exact iff_of_false hkind hid

end Burden

/-- Who keeps to the discipline is regular. -/
theorem Program.Obeys.regular {ω : Type} {licence : Licence ω} {p : Program ω} {refs : List Ref}
    {β : Burden} (h : p.Obeys licence refs β) (hβ : β.IsProper) : p.Regular refs := by
  induction p generalizing refs β with
  | done x => trivial
  | act a next ih =>
    obtain ⟨hm, hn⟩ := h
    refine ⟨?_, hm, fun x hx => ?_⟩
    · -- whatever the answer is, the act is the same
      obtain ⟨x, hx⟩ := a.exists_plausible
      obtain ⟨β', ha, -⟩ := hn x hx
      exact (ha.isProper hβ).1
    · obtain ⟨β', ha, ho⟩ := hn x hx
      exact ih x ho (ha.isProper hβ).2
  | wait w next ih =>
    cases w with
    | enter r turn =>
      obtain ⟨hr, hn⟩ := h
      refine ⟨fun r' hr' => List.mem_singleton.1 hr' ▸ hr, fun x => ?_⟩
      obtain ⟨β', ht, ho⟩ := hn x
      exact ih x ho (ht.isProper hβ)
    | converse commands =>
      obtain ⟨-, hc, hn⟩ := h
      refine ⟨fun r hr => ?_, fun outcomes => ih outcomes (hn outcomes) trivial⟩
      obtain ⟨c, hc', rfl⟩ := List.mem_map.1 hr
      exact hc c hc'
    | greet link =>
      obtain ⟨-, hn⟩ := h
      exact ⟨nofun, fun o => ih o (hn o) (Burden.isProper_afterGreeting link o)⟩

/-! ## What a move does to the standing -/

/-- What a move does to the standing of members and connections. -/
inductive Shift {ω : Type} (b : Broker ω) : Move ω → Standing → Prop where
  | still {m : Move ω} : Shift b m b.standing
  | accepted : Shift b .accept b.standing.accept
  | acted {c : Nat} {a : Act} {next : a.Answer → Program ω}
      (hp : b.phase? c = some (.running (.act a next))) :
      Shift b (.run c) (b.act a).2.standing
  | turned {n : Nat} {t : Ticket} {rest : List Ticket} {r : Ref} (turn : Turn)
      {next : turn.Answer → Program ω} (hn : (b.member n).queue = t :: rest)
      (hp : b.phase? t.call = some (.entering r turn next)) :
      Shift b (.serve n) (b.take n turn).2.standing
  | cut {m : Move ω} (n : Nat) : Shift b m (b.standing.disconnect n)

namespace Broker

variable {ω : Type} {b b' : Broker ω} {m : Move ω} {c : Nat}

/-- A leg goes on after the connection of a member may have been closed. -/
theorem shift_setLeg {a : Broker ω} {n : Nat} {t : Ticket} {state : LegState}
    (ha : a.standing = b.standing ∨ a.standing = b.standing.disconnect n) :
    Shift b m (a.setLeg t state).standing := by
  rw [standing_setLeg]
  rcases ha with ha | ha <;> rw [ha]
  · exact .still
  · exact .cut n

theorem shift_run {p : Program ω} (hp : b.phase? c = some (.running p)) :
    Shift b (.run c) (b.stepProgram c p).standing := by
  cases p with
  | done x => exact .still
  | act a next => exact .acted hp
  | wait w next =>
    cases w with
    | enter r turn =>
      simp only [stepProgram, beginWait, standing_setPhase, standing_queueUp]
      exact .still
    | converse commands =>
      simp only [stepProgram, beginWait, standing_setPhase, standing_queueLegs]
      exact .still
    | greet link =>
      simp only [stepProgram, beginWait]
      split
      · rw [standing_setPhase, standing_changeLink b link (by rfl)]
        exact .still
      · exact .still

theorem standing_step (hm : b.step m = some b') : Shift b m b'.standing := by
  cases makes_of_step hm with
  | runs hp => exact shift_run hp
  | turns hn hp =>
    rw [standing_setPhase, standing_serveNext]
    exact .turned _ hn hp
  | begins hn hp hl =>
    obtain ⟨a, state, e, -, ha, -⟩ := beginExchange_eq hn hp hl
    rw [e]
    exact shift_setLeg ha
  | @receives c leg n l _ o rest _ hrec =>
    obtain ⟨a, e, -, ha⟩ := settle_eq (b.changeLink l fun _ => rest) n ⟨c, leg⟩ o
    rw [standing_changeLink b l (Link.closed_of_receive? hrec)] at ha
    rw [e]
    exact shift_setLeg ha
  | supersedes _ _ _ =>
    rw [standing_conclude]
    exact .still
  | @expires c leg n _ _ _ _ =>
    obtain ⟨a, e, -, ha⟩ := settle_eq b n ⟨c, leg⟩ (.error .timedOut)
    rw [e]
    exact shift_setLeg ha
  | hears _ hrec =>
    rw [standing_setPhase, standing_changeLink b _ (Link.closed_of_receive? hrec)]
    exact .still
  | abandons _ _ _ =>
    rw [standing_setPhase, standing_withdraw]
    exact .still
  | accepts =>
    rw [standing_accept]
    exact .accepted
  | signals l s =>
    rw [standing_changeLink b l (Link.closed_arrive s _)]
    exact .still
  | @releases n _ _ =>
    rw [standing_disconnect]
    exact .cut n
  | starts _ _ _ | givesUp _ _ | passes _ => exact .still

end Broker

namespace Shift

variable {ω : Type} {b : Broker ω} {m : Move ω} {s : Standing}

open Broker

/-- Handles stay those of members. -/
theorem genuine {r : Ref} (h : Shift b m s) (hr : b.standing.Genuine r) : s.Genuine r := by
  cases h with
  | still | accepted => exact hr
  | acted _ => exact genuine_act hr _
  | turned turn => exact genuine_take hr _ turn
  | cut n => exact hr.disconnect n

/-- The generation of a member only advances. -/
theorem generation_le (h : Shift b m s) (n : Nat) :
    (b.standing.member n).generation ≤ (s.member n).generation := by
  cases h with
  | still | accepted => exact Nat.le_refl _
  | acted _ => exact generation_act b _ n
  | turned turn => exact Nat.le_of_eq (generation_take b _ turn n).symm
  | cut k => exact Nat.le_of_eq (Standing.generation_disconnect _ k n).symm

/-- A connection that is closed stays so. -/
theorem isClosed {l : Nat} (h : Shift b m s) (hl : b.standing.IsClosed l) : s.IsClosed l := by
  cases h with
  | still => exact hl
  | accepted => exact hl.accept
  | acted _ => exact isClosed_act hl _
  | turned turn => exact isClosed_take hl _ turn
  | cut n => exact hl.disconnect n

/-- A connection that a member loses is closed. -/
theorem closes {β : Nat → Burden} {n : Nat} {ch : Channel} (h : Shift b m s)
    (hh : b.standing.Held β) (hn : (b.standing.member n).channel = some ch) :
    (s.member n).channel = some ch ∨ s.IsClosed ch.link := by
  cases h with
  | still | accepted => exact .inl hn
  | acted _ =>
    rw [channel_standing] at hn
    rw [channel_standing]
    exact .inl (channel_act _ hn)
  | turned turn => exact closes_take hh _ turn hn
  | cut k => exact Standing.channel_disconnect hh k hn

/-- No connection gets ahead of its member. -/
theorem dated (h : Shift b m s) (hd : b.standing.Dated) : s.Dated := by
  cases h with
  | still | accepted => exact hd
  | acted _ => exact dated_act hd _
  | turned turn => exact dated_take hd _ turn
  | cut n => exact hd.disconnect n

end Shift

namespace Broker

variable {ω : Type} {b b' : Broker ω} {m : Move ω} {c : Nat}

/-- A proper act keeps the registry and the members sound. -/
theorem sound_act {a : Act} (hs : b.standing.Sound fun _ => .nothing) (ha : a.IsProper) :
    (b.act a).2.standing.Sound fun _ => .nothing := by
  cases a with
  | find id | roster => exact hs
  | enrol kind id link =>
    rw [standing_enrol]
    exact hs.enrol link ha
  | reinstate r => exact ha.elim
  | strike r =>
    rw [standing_strike]
    split
    · exact hs.unregister r.id
    · exact hs
  | dismiss kind id =>
    rcases b.standing_dismiss kind id with e | e <;> rw [e]
    · exact hs
    · exact hs.unregister id
  | advance r =>
    rw [standing_advance]
    exact hs.change r.number ⟨fun _ => rfl, fun _ => rfl, fun _ => id⟩ (hs.vacant r.number)
  | discard link =>
    change (b.hangUp link).standing.Sound _
    rw [standing_hangUp]
    exact hs.hangUp link

/-- So does every turn on a member. -/
theorem sound_take (hs : b.standing.Sound fun _ => .nothing) (n : Nat) (turn : Turn) :
    (b.take n turn).2.standing.Sound fun _ => .nothing := by
  cases turn with
  | offer g l =>
    rcases ha : (b.take n (.offer g l)).1 with _ | _ | _
    · obtain ⟨hret, -, e⟩ := take_offer_taken ha
      rw [e]
      refine (hs.disconnect n).change n ⟨fun _ => rfl, fun _ => rfl, fun _ => id⟩ fun h => ?_
      rw [Standing.retired_disconnect, retired_standing, hret] at h
      cases h
    · rw [(take_offer_superseded ha).2.2, standing_hangUp]
      exact hs.hangUp l
    · rw [(take_offer_handedBack ha).2]
      exact hs
  | shut =>
    rw [standing_shut]
    refine (hs.disconnect n).change n ⟨fun _ => rfl, fun _ => rfl, fun _ _ => rfl⟩ fun _ => ?_
    rw [Standing.member_disconnect_self]
  | retire =>
    rcases ha : (b.take n .retire).1 with _ | _
    · rw [(take_retire_false ha).2]
      exact hs
    · obtain ⟨hch, e⟩ := take_retire_true ha
      rw [e]
      refine hs.change n ⟨fun _ => rfl, fun _ => rfl, fun _ _ => rfl⟩ fun _ => ?_
      rw [channel_standing, hch]
  | look => exact hs

/-! ## A steady broker -/

/-- A call that is regular, with handles of members that were made. -/
structure Settles (s : Standing) (call : Call ω) : Prop where
  genuine : ∀ r ∈ call.refs, s.Genuine r
  regular : ∀ p ∈ call.phase.left?, p.Regular call.refs

/-- The queues, the registry and the members are in order, and all calls are regular. -/
structure Steady (b : Broker ω) : Prop where
  order : b.InOrder
  sound : b.standing.Sound fun _ => .nothing
  calls : ∀ call ∈ b.calls, Settles b.standing call

/-- A move starts no call but regular ones, with handles of members that were made. -/
def StartsRegular (b : Broker ω) : Move ω → Prop
  | .start program refs _ => program.Regular refs ∧ ∀ r ∈ refs, b.standing.Genuine r
  | _ => True

namespace Steady

/-- What a call that goes on is about to do is about members that it has come across. -/
theorem of_phase {p : Phase ω} {q : Program ω} (h : b.Steady) (hp : b.phase? c = some p)
    (hq : p.left? = some q) :
    ∃ refs, q.Regular refs ∧ ∀ r ∈ refs, b.standing.Genuine r := by
  obtain ⟨call, hcall, rfl⟩ := exists_call_of_phase hp
  have hc := h.calls call (List.mem_of_getElem? hcall)
  exact ⟨call.refs, hc.regular q hq, hc.genuine⟩

/-- The members of a wait were made. -/
theorem genuine_of_wait {p : Phase ω} {w : Wait} {next : w.Answer → Program ω} (h : b.Steady)
    (hp : b.phase? c = some p) (hq : p.left? = some (.wait w next)) :
    ∀ r ∈ w.members, b.standing.Genuine r := by
  obtain ⟨refs, hreg, hg⟩ := h.of_phase hp hq
  exact fun r hr => hg r (hreg.1 r hr)

/-! ### Queues -/

theorem inOrder_run {p : Program ω} (h : b.Steady) (hp : b.phase? c = some (.running p)) :
    (b.stepProgram c p).InOrder := by
  cases p with
  | done x => exact h.order.setPhase hp (not_waitsAt_running _) fun _ _ => id
  | act a next =>
    exact ((h.order.act a).meet c _).setPhase (by rw [phase?_meet, phase?_act, hp])
      (not_waitsAt_running _) (not_waitsAt_running _)
  | wait w next =>
    have hg := h.genuine_of_wait hp rfl
    cases w with
    | enter r turn =>
      have hr := (hg r (List.mem_singleton_self r)).1
      exact h.order.enter hp (not_waitsAt_running _) (by simpa using hr)
    | converse commands =>
      refine h.order.converse hp (not_waitsAt_running _) fun q hq => ?_
      simpa using (hg q.1 (List.mem_map_of_mem hq)).1
    | greet link =>
      simp only [stepProgram, beginWait]
      split
      · exact (h.order.changeLink link _).setPhase hp (not_waitsAt_running _) fun _ _ => id
      · exact h.order.setPhase hp (not_waitsAt_running _) (not_waitsAt_running _)

theorem inOrder_beginExchange {n : Nat} {t : Ticket} {rest : List Ticket} {legs : List Leg}
    {r : Ref} {command : Command} {next : List Outcome → Program ω} (h : b.Steady)
    (hn : b.queue n = t :: rest) (hp : b.phase? t.call = some (.conversing legs next))
    (hl : legs[t.leg]? = some ⟨r, command, .queued⟩) : (b.beginExchange n t command).InOrder := by
  simp only [beginExchange]
  split
  · exact h.order.conclude hn hp _
  · rename_i ch hch
    split
    · exact h.order.conclude hn hp _
    · split
      · exact h.order.talk hn hp hl rfl hch _ _
      · exact h.order.settle hn hp _

/-- A member that nobody refers to is not talked to. -/
theorem not_talking_of_not_inUse {n : Nat} (h : b.Steady) (hu : b.isInUse n = false) (t : Ticket)
    (l d : Nat) : b.talking? t ≠ some (n, l, d) := by
  intro ht
  obtain ⟨legs, next, leg, hp, hl, hn, -⟩ := leg_of_talking? ht
  obtain ⟨call, hcall, hph⟩ := exists_call_of_phase hp
  have hc := h.calls call (List.mem_of_getElem? hcall)
  have hmem : leg.member ∈ call.refs := by
    have hreg : (Program.wait (.converse _) next).Regular call.refs :=
      hc.regular _ (by rw [hph]; rfl)
    refine hreg.1 leg.member ?_
    exact List.mem_map_of_mem (f := Prod.fst) (List.mem_map_of_mem (List.mem_of_getElem? hl))
  have huse : b.isInUse n := by
    simp only [isInUse, Bool.or_eq_true, List.any_eq_true, Bool.and_eq_true]
    refine .inr ⟨call, List.mem_of_getElem? hcall, ?_, leg.member, hmem, by simpa using hn⟩
    rw [Call.isActive, hph]
  rw [hu] at huse
  cases huse

theorem inOrder (h : b.Steady) (hm : b.step m = some b') : b'.InOrder := by
  cases makes_of_step hm with
  | starts program refs brings => exact h.order.start program refs brings
  | runs hp => exact h.inOrder_run hp
  | turns hn hp => exact h.order.turn hn hp _
  | begins hn hp hl => exact h.inOrder_beginExchange hn hp hl
  -- who is talked to is in front of the queue, so it is the front that an exchange ends for
  | @receives _ _ _ l _ o rest ht _ =>
    obtain ⟨legs, next, rest', g, hp, hn, -⟩ := h.order.exchange ht
    exact (h.order.changeLink l fun _ => rest).settle hn hp o
  | supersedes ht _ _ =>
    obtain ⟨legs, next, rest, g, hp, hn, -⟩ := h.order.exchange ht
    exact h.order.conclude hn hp _
  | expires ht _ =>
    obtain ⟨legs, next, rest, g, hp, hn, -⟩ := h.order.exchange ht
    exact h.order.settle hn hp _
  | @hears _ l _ _ _ rest hp _ =>
    exact (h.order.changeLink l fun _ => rest).setPhase hp (fun _ _ => id)
      (not_waitsAt_running _)
  | givesUp hp _ => exact h.order.setPhase hp (fun _ _ => id) (not_waitsAt_running _)
  | @abandons _ call hcall _ _ =>
    have hp : b.phase? _ = some call.phase := congrArg (Option.map Call.phase) hcall
    exact h.order.abandon hp
  | accepts | passes _ => exact h.order.congr (fun _ => rfl) (fun _ => rfl) fun _ _ hc => hc
  | signals l s => exact h.order.changeLink l _
  | releases _ hu => exact h.order.release (h.not_talking_of_not_inUse hu)

/-! ### Members and calls -/

theorem sound_step (h : b.Steady) (hm : b.step m = some b') :
    b'.standing.Sound fun _ => .nothing := by
  -- the standing is all that matters of the state after the move
  have hshift := standing_step hm
  generalize b'.standing = s at hshift
  cases hshift with
  | still => exact h.sound
  | accepted => exact h.sound.accept
  | acted hp =>
    obtain ⟨refs, hreg, -⟩ := h.of_phase hp rfl
    exact sound_act h.sound hreg.1
  | turned turn => exact sound_take h.sound _ turn
  | cut n => exact h.sound.disconnect n

end Steady

/-- Commands that go on leave as much to do as before, or what follows from the replies. -/
theorem regular_phaseOf {refs : List Ref} {legs : List Leg} {next : List Outcome → Program ω}
    (hm : ∀ l ∈ legs, l.member ∈ refs) (hn : ∀ outcomes, (next outcomes).Regular refs) :
    ∀ p ∈ (phaseOf legs next).left?, p.Regular refs := by
  intro p hp
  unfold phaseOf at hp
  split at hp
  · cases hp
    exact hn _
  · cases hp
    refine ⟨fun r hr => ?_, hn⟩
    obtain ⟨q, hq, rfl⟩ := List.mem_map.1 hr
    obtain ⟨l, hl, rfl⟩ := List.mem_map.1 hq
    exact hm l hl

/-- A call that goes on stays regular. -/
theorem regular_of_advance {p q : Phase ω} {refs known : List Ref}
    (hs : b.standing.Sound fun _ => .nothing) (ha : Advance b c m p refs q)
    (hp : ∀ r ∈ p.left?, r.Regular known) : ∀ r ∈ q.left?, r.Regular (refs ++ known) := by
  cases ha with
  | finishes | enters | asks => exact hp
  | acts =>
    intro r hr
    cases hr
    exact (hp _ rfl).2.2 _ (plausible_act hs _)
  | converses =>
    obtain ⟨hm, hn⟩ := hp _ rfl
    refine regular_phaseOf (fun l hl => ?_) hn
    obtain ⟨x, hx, rfl⟩ := List.mem_map.1 hl
    exact hm x.1 (List.mem_map_of_mem hx)
  | fails _ | hears _ | turns =>
    intro r hr
    cases hr
    exact (hp _ rfl).2 _
  -- the commands are the same as before, so they are for members that were come across
  | @goes _ legs next i leg state hl hg =>
    obtain ⟨hm, hn⟩ := hp _ rfl
    refine regular_phaseOf (fun l hl => ?_) hn
    have hmem : (l.member, l.command) ∈ legs.map fun l => (l.member, l.command) := by
      rw [← commands_modify legs i state]
      exact List.mem_map_of_mem (f := fun l : Leg => (l.member, l.command)) hl
    exact hm l.member (List.mem_map_of_mem (f := Prod.fst) hmem)
  | leaves => exact nofun

/-- Whoever a call comes across was made. -/
theorem genuine_of_advance {p q : Phase ω} {refs : List Ref}
    (hs : b.standing.Sound fun _ => .nothing) (ha : Advance b c m p refs q) :
    ∀ r ∈ refs, b.standing.Genuine r := by
  cases ha with
  | acts => exact fun r hr => genuine_of_refsOf hs _ hr
  | _ => exact nofun

namespace Steady

theorem settles_step (h : b.Steady) (hs : b.StartsRegular m) (hm : b.step m = some b') :
    ∀ call ∈ b'.calls, Settles b'.standing call := by
  intro call' hcall'
  obtain ⟨c, hc'⟩ := List.getElem?_of_mem hcall'
  have hshift := standing_step hm
  -- the call was there before, and stays or goes on; or it has just been started
  rcases call_of_step hm hc' with ⟨call, hc⟩ | ⟨-, program, refs, brings, rfl, rfl⟩
  · have hcall := h.calls call (List.mem_of_getElem? hc)
    obtain ⟨refs, p, hp, hsame | ⟨-, ha⟩⟩ := call_step hm hc
    · obtain ⟨rfl, rfl⟩ := hsame
      obtain rfl := Option.some.inj (hc'.symm.trans hp)
      exact ⟨fun r hr => hshift.genuine (hcall.genuine r hr), hcall.regular⟩
    · obtain rfl := Option.some.inj (hc'.symm.trans hp)
      refine ⟨fun r hr => hshift.genuine ?_, regular_of_advance h.sound ha hcall.regular⟩
      rcases List.mem_append.1 hr with hr | hr
      · exact genuine_of_advance h.sound ha r hr
      · exact hcall.genuine r hr
  · refine ⟨fun r hr => hshift.genuine (hs.2 r hr), fun p hp => ?_⟩
    cases hp
    exact hs.1

/-- Every move keeps the broker steady. -/
theorem step (h : b.Steady) (hs : b.StartsRegular m) (hm : b.step m = some b') : b'.Steady :=
  ⟨h.inOrder hm, h.sound_step hm, h.settles_step hs hm⟩

/-- Nothing has happened. -/
theorem fresh (timeout : Nat) : (fresh timeout : Broker ω).Steady where
  order := .fresh timeout
  sound := .fresh timeout
  calls := nofun

/-- A handle that somebody has is that of a member. -/
theorem genuine_of_knows {r : Ref} (h : b.Steady) (hr : b.Knows r) : b.standing.Genuine r := by
  rcases hr with ⟨e, he, rfl⟩ | ⟨call, hcall, hr⟩
  · exact (h.sound.keyed_of_mem he).2
  · exact (h.calls call hcall).genuine r hr

end Steady

/-- A run that starts nothing but regular calls keeps the broker steady, at its end and before each
move. -/
theorem Run.steady {allowed : Broker ω → Move ω → Prop} {past : List (Deed ω)} {timeout : Nat}
    (hall : ∀ (b : Broker ω) m, b.Steady → allowed b m → b.StartsRegular m)
    (hr : Run (fun _ => allowed) (Broker.fresh timeout) past b) :
    b.Steady ∧ ∀ d ∈ past, d.before.Steady := by
  induction hr with
  | nil => exact ⟨.fresh timeout, nofun⟩
  | snoc m _ ha hm ih =>
    obtain ⟨hb, hpast⟩ := ih
    refine ⟨hb.step (hall _ m hb ha) hm, fun d hd => ?_⟩
    rcases List.mem_append.1 hd with hd | hd
    · exact hpast d hd
    · rw [List.mem_singleton.1 hd]
      exact hb

/-- Handles stay those of members throughout a run. -/
theorem Run.genuine {allowed : Broker ω → Move ω → Prop} {a : Broker ω} {past : List (Deed ω)}
    {r : Ref} (hr : Run (fun _ => allowed) a past b) (h : a.standing.Genuine r) :
    b.standing.Genuine r := by
  induction hr with
  | nil => exact h
  | snoc _ _ _ hm ih => exact (standing_step hm).genuine ih

end Broker

end WorkerBroker
