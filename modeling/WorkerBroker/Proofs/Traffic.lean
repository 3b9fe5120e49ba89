import WorkerBroker.Proofs.Course
import WorkerBroker.Proofs.Framing
import WorkerBroker.Proofs.Generations
/-!
# What moves do on connections

A ticket speaks on a connection while its line has been written and its exchange has not ended
(`Broker.speaks?`). What has been written on a connection, and what has arrived there and has not
been read, is `Broker.carried`. A move changes either only as far as it can be seen: `Traffic` lists
how, and `Broker.Stride.traffic` says that every move of a run is one of these, as long as nobody
who waits for a reply is given up.

A connection on which an exchange has failed is `Standing.Spent`: it is closed, or it is left to a
member that has announced another one, or to a call that will close it. Nothing is written on such
a connection any more.
-/

namespace WorkerBroker

open Function (update)

/-- The connection on which a command waits for its reply. -/
def Leg.link? (l : Leg) : Option Nat :=
  match l.state with
  | .talking link _ => some link
  | _ => none

/-- The connection on which a call in this phase waits for a reply, by the leg of its ticket. -/
def Phase.speaks? {ω : Type} (leg : Nat) : Phase ω → Option Nat
  | .conversing legs _ => legs[leg]?.bind Leg.link?
  | .greeting link _ _ => if leg = 0 then some link else none
  | _ => none

namespace Broker

variable {ω : Type} {b a : Broker ω} {c : Nat} {p q : Phase ω}

/-- The connection on which a ticket waits for a reply. -/
def speaks? (t : Ticket) (b : Broker ω) : Option Nat :=
  (b.phase? t.call).bind (Phase.speaks? t.leg)

/-- The lines that were written on a connection, and the bytes that wait to be read. -/
def carried (l : Nat) (b : Broker ω) : List String × Bytes :=
  ((b.link l).sent, (b.link l).inbox.queue)

/-! ## Who speaks -/

theorem speaks?_eq {t : Ticket} (h : b.phase? t.call = some p) : b.speaks? t = p.speaks? t.leg := by
  rw [speaks?, h]
  rfl

theorem speaks?_congr {t : Ticket} (h : a.phase? t.call = b.phase? t.call) :
    a.speaks? t = b.speaks? t := by
  rw [speaks?, speaks?, h]

/-- Of a command that talks, the ticket speaks. -/
theorem speaks?_of_talking? {t : Ticket} {n l d : Nat} (h : b.talking? t = some (n, l, d)) :
    b.speaks? t = some l := by
  obtain ⟨legs, next, leg, hp, hl, -, hs⟩ := leg_of_talking? h
  rw [speaks?_eq hp]
  simp only [Phase.speaks?, hl, Option.bind_some, Leg.link?, hs]

/-- A call whose commands are all over speaks no more than one that is about to be. -/
theorem speaks?_phaseOf (legs : List Leg) (next : List Outcome → Program ω) (i : Nat) :
    (phaseOf legs next).speaks? i = legs[i]?.bind Leg.link? := by
  unfold phaseOf
  split
  · rename_i outcomes h
    rcases hl : legs[i]? with _ | l
    · rfl
    · have hover := Leg.outcome?_ne_none h l (List.mem_of_getElem? hl)
      obtain ⟨r, command, state⟩ := l
      cases state with
      | ended o => rfl
      | _ => exact absurd rfl hover
  · rfl

/-- One call goes to another phase. -/
theorem speaks?_setPhase (h₁ : ∀ k, a.phase? k = b.phase? k) (hp : b.phase? c = some p)
    (t : Ticket) :
    (a.setPhase c q).speaks? t = if t.call = c then q.speaks? t.leg else b.speaks? t := by
  split
  · rename_i ht
    subst ht
    exact speaks?_eq (phase?_setPhase_self (by rw [h₁, hp]))
  · rename_i ht
    exact speaks?_congr ((phase?_setPhase_ne a q ht).trans (h₁ _))

/-- One call goes to a phase in which it speaks as before. -/
theorem speaks?_setPhase_same (h₁ : ∀ k, a.phase? k = b.phase? k) (hp : b.phase? c = some p)
    (hq : ∀ i, q.speaks? i = p.speaks? i) (t : Ticket) :
    (a.setPhase c q).speaks? t = b.speaks? t := by
  rw [speaks?_setPhase h₁ hp]
  split
  · rename_i ht
    subst ht
    rw [hq, speaks?_eq hp]
  · rfl

/-- One command of a call goes on. -/
theorem speaks?_setLeg {t : Ticket} {legs : List Leg} {leg : Leg} {next : List Outcome → Program ω}
    (h₁ : ∀ k, a.phase? k = b.phase? k) (hp : b.phase? t.call = some (.conversing legs next))
    (hl : legs[t.leg]? = some leg) (state : LegState) (u : Ticket) :
    (a.setLeg t state).speaks? u =
      if u = t then Leg.link? { leg with state } else b.speaks? u := by
  rw [setLeg, h₁, hp]
  change (a.setPhase t.call _).speaks? u = _
  rw [speaks?_setPhase h₁ hp, speaks?_phaseOf]
  by_cases hu : u.call = t.call
  · rw [if_pos hu]
    by_cases hi : u.leg = t.leg
    · obtain rfl : u = t := by cases u; cases t; cases hu; cases hi; rfl
      rw [if_pos rfl, List.getElem?_modify_eq, hl]
      rfl
    · rw [if_neg fun e => hi (congrArg Ticket.leg e), List.getElem?_modify_ne _ _ (Ne.symm hi),
        speaks?_eq (hu ▸ hp)]
      rfl
  · rw [if_neg hu, if_neg fun e => hu (congrArg Ticket.call e)]

/-! ## What connections carry -/

theorem link_changeLink (b : Broker ω) (l k : Nat) (f : Link → Link) :
    (b.changeLink l f).link k = if k = l ∧ l < b.links.length then f (b.link k) else b.link k := by
  by_cases hk : k = l
  · subst hk
    by_cases hl : k < b.links.length
    · rw [if_pos ⟨rfl, hl⟩]
      simp [link, changeLink, hl]
    · rw [if_neg fun e => hl e.2]
      simp [link, changeLink, hl]
  · rw [if_neg fun e => hk e.1]
    simp [link, changeLink, Ne.symm hk]

/-- What is carried on a connection is not changed with other things about it. -/
theorem carried_changeLink (b : Broker ω) (l k : Nat) {f : Link → Link}
    (hf : ∀ k : Link, (f k).sent = k.sent ∧ (f k).inbox.queue = k.inbox.queue) :
    (b.changeLink l f).carried k = b.carried k := by
  rw [carried, carried, link_changeLink]
  split
  · rw [(hf _).1, (hf _).2]
  · rfl

theorem carried_changeLink_ne (b : Broker ω) {l k : Nat} (f : Link → Link) (h : k ≠ l) :
    (b.changeLink l f).carried k = b.carried k := by
  rw [carried, carried, link_changeLink, if_neg fun e => h e.1]

theorem carried_hangUp (b : Broker ω) (l k : Nat) : (b.hangUp l).carried k = b.carried k :=
  b.carried_changeLink l k fun _ => ⟨rfl, rfl⟩

theorem carried_disconnect (b : Broker ω) (n k : Nat) :
    (b.disconnect n).carried k = b.carried k := by
  unfold disconnect
  split
  · rfl
  · exact b.carried_hangUp _ k

theorem carried_act (b : Broker ω) (a : Act) (k : Nat) : (b.act a).2.carried k = b.carried k := by
  cases a with
  | discard l => exact b.carried_hangUp l k
  | strike r =>
    simp only [act]
    split <;> rfl
  | dismiss kind id =>
    simp only [act]
    split
    · split <;> rfl
    · rfl
  | _ => rfl

theorem carried_take (b : Broker ω) (n : Nat) (t : Turn) (k : Nat) :
    (b.take n t).2.carried k = b.carried k := by
  cases t with
  | offer g l =>
    simp only [take]
    split
    · rfl
    · split
      · exact b.carried_hangUp l k
      · exact b.carried_disconnect n k
  | shut => exact b.carried_disconnect n k
  | retire =>
    simp only [take]
    split <;> rfl
  | look => rfl

theorem carried_setLeg (b : Broker ω) (t : Ticket) (state : LegState) (k : Nat) :
    (b.setLeg t state).carried k = b.carried k := by
  unfold setLeg
  split <;> rfl

theorem carried_settle (b : Broker ω) (n : Nat) (t : Ticket) (o : Outcome) (k : Nat) :
    (b.settle n t o).carried k = b.carried k := by
  cases o with
  | ok raw => exact carried_setLeg _ t _ k
  | error s => exact (carried_setLeg _ t _ k).trans (b.carried_disconnect n k)

theorem carried_queueLegs (b : Broker ω) (c i : Nat) (commands : List (Ref × Command)) (k : Nat) :
    (b.queueLegs c i commands).carried k = b.carried k := by
  induction commands generalizing i b with
  | nil => rfl
  | cons p ps ih => exact ih _ _

/-- Nothing is carried on a connection that is new. -/
theorem carried_accept (b : Broker ω) (k : Nat) :
    Broker.carried k { b with links := b.links ++ [.fresh] } = b.carried k := by
  have hlink : Broker.link k { b with links := b.links ++ [.fresh] } = b.link k := by
    simp only [link]
    by_cases hk : k = b.links.length
    · rw [hk, List.getElem?_concat_length, List.getElem?_eq_none (Nat.le_refl _)]
      rfl
    · rw [getElem?_concat_ne _ _ hk]
  rw [carried, carried, hlink]

/-- A line is written. -/
theorem carried_write {l : Nat} (h : l < b.links.length) (line : String) (k : Nat) :
    (b.changeLink l (Link.write line)).carried k =
      if k = l then ((b.carried l).1 ++ [line], (b.carried l).2) else b.carried k := by
  rw [carried, link_changeLink]
  by_cases hk : k = l
  · subst hk
    rw [if_pos ⟨rfl, h⟩, if_pos rfl]
    rfl
  · rw [if_neg fun e => hk e.1, if_neg hk]
    rfl

/-- A connection that is open is one of the broker's. -/
theorem lt_of_isOpen {l : Nat} (h : b.standing.IsOpen l) : l < b.links.length := by
  have hlt := (List.getElem?_eq_some_iff.1 h).1
  rwa [standing, List.length_map] at hlt

end Broker

/-! ## What is read -/

namespace Link

/-- What is read has been sent by the worker, not written to it. -/
theorem sent_of_receive? {l rest : Link} {o : Outcome} (h : l.receive? = some (o, rest)) :
    rest.sent = l.sent := by
  simp only [receive?] at h
  split at h <;> cases h <;> rfl

end Link

namespace Broker

variable {ω : Type} {b : Broker ω} {l : Nat} {o : Outcome} {rest : Link}

/-- Nothing is written by reading. -/
theorem sent_of_receive? (h : (b.link l).receive? = some (o, rest)) (k : Nat) :
    ((b.changeLink l fun _ => rest).carried k).1 = (b.carried k).1 := by
  rw [carried, link_changeLink]
  split
  · rename_i hk
    rw [hk.1]
    exact Link.sent_of_receive? h
  · rfl

/-- A reply is all that was carried, and nothing of it is left. -/
theorem carried_of_receive? {raw : Bytes} (hl : b.standing.IsOpen l)
    (h : (b.link l).receive? = some (.ok raw, rest)) :
    (b.carried l).2 = raw ∧ raw ≠ [] ∧ ((b.changeLink l fun _ => rest).carried l).2 = [] := by
  obtain ⟨hq, hne, hrest⟩ := Link.receive?_ok h
  refine ⟨hq, hne, ?_⟩
  rw [carried, link_changeLink, if_pos ⟨rfl, lt_of_isOpen hl⟩]
  exact hrest

end Broker

/-! ## Connections that are spent -/

/-- Nothing will be written on the connection any more. -/
def Standing.Spent (asked : Nat → Operation) (s : Standing) (β : Nat → Burden) (l : Nat) : Prop :=
  s.IsClosed l ∨
    (∃ n ch, (s.member n).channel = some ch ∧ ch.link = l ∧
      ch.generation < (s.member n).generation) ∨
    ∃ c, β c = .spoilt l ∧ (asked c).licence.leaves = false

/-- A ticket may be next to write on a connection: it is in front of the queue of the member whose
current connection it is, or it is that of the call which has the connection in hand. -/
def Broker.MayWrite (b : Broker Result) (β : Nat → Burden) (t : Ticket) (l : Nat) : Prop :=
  (∃ n ch rest, (b.member n).channel = some ch ∧ ch.link = l ∧
      ch.generation = (b.member n).generation ∧ b.queue n = t :: rest) ∨
    t.leg = 0 ∧ β t.call = .carries l none

/-- What a move does on connections, as far as it can be seen. -/
inductive Traffic (asked : Nat → Operation) (b : Broker Result) (β : Nat → Burden)
    (b' : Broker Result) (β' : Nat → Burden) : Option Event → Prop where
  | quiet (hs : ∀ u, b'.speaks? u = b.speaks? u) (hl : ∀ k, b'.carried k = b.carried k) :
      Traffic asked b β b' β' none
  | wrote (t : Ticket) (l : Nat) (line : String) (hw : b.MayWrite β t l)
      (ht : b.speaks? t = none) (hs : ∀ u, b'.speaks? u = if u = t then some l else b.speaks? u)
      (hl : ∀ k, b'.carried k =
        if k = l then ((b.carried l).1 ++ [line], (b.carried l).2) else b.carried k) :
      Traffic asked b β b' β' (some (.wrote t l line))
  | answered (l : Nat) (bytes : Bytes) (hs : ∀ u, b'.speaks? u = b.speaks? u)
      (hl : ∀ k, b'.carried k =
        if k = l then ((b.carried l).1, (b.carried l).2 ++ bytes) else b.carried k) :
      Traffic asked b β b' β' (some (.answered l bytes))
  | ended (t : Ticket) (l : Nat) (o : Outcome)
      (ht : b.speaks? t = some l ∨ b.speaks? t = none ∧ b.MayWrite β t l ∧ ∃ s, o = .error s)
      (hs : ∀ u, b'.speaks? u = if u = t then none else b.speaks? u)
      (hl : ∀ k, (b'.carried k).1 = (b.carried k).1 ∧ (k ≠ l → b'.carried k = b.carried k))
      (hok : ∀ raw, o = .ok raw → (b.carried l).2 = raw ∧ raw ≠ [] ∧ (b'.carried l).2 = [])
      (herr : ∀ s, o = .error s → b'.standing.Spent asked β' l) :
      Traffic asked b β b' β' (some (.ended t l o))

/-- An exchange ends without a reply. -/
theorem Traffic.failed {asked : Nat → Operation} {b b' : Broker Result} {β β' : Nat → Burden}
    (t : Ticket) (l : Nat) (s : Silence)
    (ht : b.speaks? t = some l ∨ b.speaks? t = none ∧ b.MayWrite β t l)
    (hs : ∀ u, b'.speaks? u = if u = t then none else b.speaks? u)
    (hl : ∀ k, (b'.carried k).1 = (b.carried k).1 ∧ (k ≠ l → b'.carried k = b.carried k))
    (h : b'.standing.Spent asked β' l) : Traffic asked b β b' β' (some (.ended t l (.error s))) :=
  .ended t l _ (ht.imp_right fun ht => ⟨ht.1, ht.2, s, rfl⟩) hs hl (fun _ e => by cases e)
    fun _ _ => h

namespace Broker

variable {asked : Nat → Operation} {b b' : Broker Result} {β β' : Nat → Burden} {c : Nat}

/-! ## Calls that go on by themselves -/

theorem not_speaks?_running {ω : Type} (p : Program ω) (i : Nat) :
    (Phase.running p).speaks? i = none := rfl

/-- A call asks a fresh connection who it is. -/
theorem traffic_greet {l : Nat} {next : Outcome → Program Result} (hc : Course asked b β)
    (hp : b.phase? c = some (.running (.wait (.greet l) next)))
    (he : Effect asked b (.run c) β (b.beginWait c (.greet l) next).standing β') :
    Traffic asked b β (b.beginWait c (.greet l) next) β' (Deed.event? ⟨b, .run c⟩) := by
  obtain ⟨call, hcall, hph⟩ := exists_call_of_phase hp
  -- who asks a fresh connection has it in hand, so nobody else speaks on it
  have hβ : β c = .carries l none := (hph ▸ hc.calls.bears c call hcall).1
  have ht : b.speaks? ⟨c, 0⟩ = none := (speaks?_eq (t := ⟨c, 0⟩) hp).trans rfl
  have hw : b.MayWrite β ⟨c, 0⟩ l := .inr ⟨rfl, hβ⟩
  simp only [Deed.event?, hp, beginWait, writing] at he ⊢
  split
  · have hlt := lt_of_isOpen (hc.held.hand c l (by rw [hβ]; rfl))
    refine .wrote _ _ _ hw ht (fun u => ?_) fun k => carried_write hlt _ k
    refine (speaks?_setPhase (fun _ => rfl) hp u).trans ?_
    by_cases hu : u.call = c
    · rw [if_pos hu]
      by_cases hi : u.leg = 0
      · obtain rfl : u = ⟨c, 0⟩ := by cases u; cases hu; cases hi; rfl
        rw [if_pos rfl]
        rfl
      · rw [if_neg fun e => hi (congrArg Ticket.leg e), speaks?_eq (hu ▸ hp)]
        exact if_neg hi
    · rw [if_neg hu, if_neg fun e => hu (congrArg Ticket.call e)]
  · rename_i hwr
    have hh : b.Hears c l (.error .reset) (.run c) :=
      ⟨rfl, ⟨next, hp⟩, Bool.eq_false_iff.2 hwr, rfl⟩
    refine .failed _ _ _ (.inr ⟨ht, hw⟩) (fun u => ?_) (fun k => ⟨rfl, fun _ => rfl⟩)
      (.inr (.inr ⟨c, ?_, ?_⟩))
    · refine (speaks?_setPhase_same (fun _ => rfl) hp (fun _ => ?_) u).trans ?_
      · rfl
      split
      · rename_i hu
        rw [hu, ht]
      · rfl
    · rw [hc.hears hh he, Function.update_self]
      rfl
    · rw [(hc.calls.suits c).unknown l hβ]
      rfl

/-- A call goes on by itself. -/
theorem traffic_run {p : Program Result} (hc : Course asked b β)
    (hp : b.phase? c = some (.running p))
    (he : Effect asked b (.run c) β (b.stepProgram c p).standing β') :
    Traffic asked b β (b.stepProgram c p) β' (Deed.event? ⟨b, .run c⟩) := by
  cases p with
  | done x =>
    have hn : Deed.event? ⟨b, .run c⟩ = none := by simp only [Deed.event?, hp]
    rw [hn]
    exact .quiet (speaks?_setPhase_same (fun _ => rfl) hp fun _ => rfl) fun _ => rfl
  | act a next =>
    have hn : Deed.event? ⟨b, .run c⟩ = none := by simp only [Deed.event?, hp]
    rw [hn]
    have hphase : ∀ k, ((b.act a).2.meet c (refsOf a (b.act a).1)).phase? k = b.phase? k :=
      fun k => by rw [phase?_meet, phase?_act]
    exact .quiet (speaks?_setPhase_same hphase hp fun _ => rfl) (b.carried_act a)
  | wait w next =>
    cases w with
    | greet l => exact traffic_greet hc hp he
    | enter r turn =>
      have hn : Deed.event? ⟨b, .run c⟩ = none := by simp only [Deed.event?, hp]
      rw [hn]
      exact .quiet (speaks?_setPhase_same (fun _ => rfl) hp fun _ => rfl) fun _ => rfl
    | converse commands =>
      have hn : Deed.event? ⟨b, .run c⟩ = none := by simp only [Deed.event?, hp]
      rw [hn]
      refine .quiet (speaks?_setPhase_same (phase?_queueLegs c 0 · commands b) hp fun i => ?_)
        (b.carried_queueLegs c 0 commands)
      refine (speaks?_phaseOf _ next i).trans ?_
      rw [List.getElem?_map]
      rcases commands[i]? with _ | q <;> rfl

/-! ## Members that serve -/

/-- What is over is not spoken of any more. -/
theorem speaks?_conclude {a : Broker Result} {t : Ticket} {legs : List Leg} {leg : Leg}
    {next : List Outcome → Program Result} (h₁ : ∀ k, a.phase? k = b.phase? k)
    (hp : b.phase? t.call = some (.conversing legs next)) (hl : legs[t.leg]? = some leg)
    (n : Nat) (o : Outcome) (u : Ticket) :
    (a.conclude n t o).speaks? u = if u = t then none else b.speaks? u :=
  speaks?_setLeg (a := a.serveNext n) h₁ hp hl (.ended o) u

theorem speaks?_settle {a : Broker Result} {t : Ticket} {legs : List Leg} {leg : Leg}
    {next : List Outcome → Program Result} (h₁ : ∀ k, a.phase? k = b.phase? k)
    (hp : b.phase? t.call = some (.conversing legs next)) (hl : legs[t.leg]? = some leg)
    (n : Nat) (o : Outcome) (u : Ticket) :
    (a.settle n t o).speaks? u = if u = t then none else b.speaks? u := by
  cases o with
  | ok raw => exact speaks?_conclude h₁ hp hl n _ u
  | error s => exact speaks?_conclude (fun k => (phase?_disconnect a n k).trans (h₁ k)) hp hl n _ u

/-- A ticket that did not speak has nothing to be quiet about. -/
theorem speaks?_of_quiet {t u : Ticket} (ht : b.speaks? t = none) :
    (if u = t then none else b.speaks? u) = b.speaks? u := by
  split
  · rename_i hu
    rw [hu, ht]
  · rfl

/-- The connection of an exchange that has come to nothing is closed. -/
theorem spent_settle {a : Broker Result} {n l g : Nat} (hh : b.standing.Held β)
    (hs : a.standing = b.standing) (hch : (b.member n).channel = some ⟨l, g⟩) (t : Ticket)
    (s : Silence) : (a.settle n t (.error s)).standing.Spent asked β' l := by
  rw [← channel_standing] at hch
  left
  rw [settle, standing_conclude, standing_disconnect, hs]
  exact Standing.isClosed_disconnect hh hch

/-- A member turns to a command: it is written if there is a current connection. -/
theorem traffic_beginExchange {n : Nat} {t : Ticket} {rest : List Ticket} {legs : List Leg}
    {r : Ref} {command : Command} {next : List Outcome → Program Result} (hc : Course asked b β)
    (hn : b.queue n = t :: rest) (hp : b.phase? t.call = some (.conversing legs next))
    (hl : legs[t.leg]? = some ⟨r, command, .queued⟩) :
    Traffic asked b β (b.beginExchange n t command) β' (Deed.event? ⟨b, .serve n⟩) := by
  have ht : b.speaks? t = none := by
    rw [speaks?_eq hp]
    simp only [Phase.speaks?, hl, Option.bind_some, Leg.link?]
  have hq : b.queued? t = some command := by simp only [queued?, hp, hl]
  have hconclude : ∀ o, Traffic asked b β (b.conclude n t o) β' none := fun o =>
    .quiet (fun u => (speaks?_conclude (fun _ => rfl) hp hl n o u).trans (speaks?_of_quiet ht))
      (carried_setLeg _ t _)
  rw [Deed.event?_serve hn, beginExchange, serving, hq]
  rcases hch : (b.member n).channel with _ | ⟨l, g⟩
  · exact hconclude _
  · by_cases hg : g = (b.member n).generation
    · have hw : b.MayWrite β t l := .inl ⟨n, ⟨l, g⟩, rest, hch, rfl, hg, hn⟩
      have hopen := hc.held.channel n ⟨l, g⟩ (by rw [channel_standing, hch])
      simp only [hg, ne_eq, not_true_eq_false, if_false, if_true, writing]
      split
      · refine .wrote t l command.line hw ht (fun u => ?_) fun k => ?_
        · exact speaks?_setLeg (a := b.changeLink l _) (fun _ => rfl) hp hl _ u
        · rw [carried_setLeg]
          exact carried_write (lt_of_isOpen hopen) _ k
      · exact .failed t l _ (.inr ⟨ht, hw⟩) (fun u => speaks?_settle (fun _ => rfl) hp hl n _ u)
          (fun k => ⟨congrArg _ (carried_settle b n t _ k), fun _ => carried_settle b n t _ k⟩)
          (spent_settle hc.held rfl hch t _)
    · simp only [hg, ne_eq, not_false_eq_true, if_true, if_false]
      exact hconclude _

/-- A member gives a call its turn. -/
theorem traffic_turn {n : Nat} {t : Ticket} {rest : List Ticket} {r : Ref} {turn : Turn}
    {next : turn.Answer → Program Result} (hn : b.queue n = t :: rest)
    (hp : b.phase? t.call = some (.entering r turn next)) :
    Traffic asked b β (((b.take n turn).2.serveNext n).setPhase t.call
      (.running (next (b.take n turn).1))) β' (Deed.event? ⟨b, .serve n⟩) := by
  have hnone : Deed.event? ⟨b, .serve n⟩ = none := by
    rw [Deed.event?_serve hn]
    simp only [serving, queued?, hp]
  have hphase : ∀ k, ((b.take n turn).2.serveNext n).phase? k = b.phase? k :=
    b.phase?_take n turn
  rw [hnone]
  exact .quiet (speaks?_setPhase_same hphase hp fun _ => rfl) (b.carried_take n turn)

/-! ## Exchanges that end -/

/-- A command that talks has its connection from its member. -/
theorem Course.exchange (hc : Course asked b β) {t : Ticket} {n l d : Nat}
    (ht : b.talking? t = some (n, l, d)) :
    ∃ legs next leg g, b.phase? t.call = some (.conversing legs next) ∧ legs[t.leg]? = some leg ∧
      (b.member n).channel = some ⟨l, g⟩ := by
  obtain ⟨legs, next, leg, hp, hl, -⟩ := leg_of_talking? ht
  obtain ⟨g, hg⟩ := hc.order.channel t n l d ht
  exact ⟨legs, next, leg, g, hp, hl, hg⟩

theorem traffic_receive {leg n l d : Nat} {o : Outcome} {link : Link} (hc : Course asked b β)
    (ht : b.talking? ⟨c, leg⟩ = some (n, l, d))
    (hrec : (b.link l).receive? = some (o, link)) :
    Traffic asked b β ((b.changeLink l fun _ => link).settle n ⟨c, leg⟩ o) β'
      (Deed.event? ⟨b, .receive c leg⟩) := by
  obtain ⟨legs, next, leg', g, hp, hl, hch⟩ := hc.exchange ht
  have hopen := hc.held.channel n ⟨l, g⟩ (by rw [channel_standing, hch])
  rw [Deed.event?_receive ht, hearing, hrec, Option.map_some]
  refine .ended _ l o (.inl (speaks?_of_talking? ht))
    (fun u => speaks?_settle (a := b.changeLink l fun _ => link) (fun _ => rfl) hp hl n o u)
    (fun k => ⟨?_, fun hk => ?_⟩) (fun raw ho => ?_) fun s ho => ?_
  · rw [carried_settle]
    exact sent_of_receive? hrec k
  · rw [carried_settle, carried_changeLink_ne b _ hk]
  · subst ho
    rw [carried_settle]
    exact carried_of_receive? hopen hrec
  · subst ho
    exact spent_settle hc.held (standing_changeLink b l (Link.closed_of_receive? hrec)) hch _ s

theorem traffic_supersede {leg n l d : Nat} {ch : Channel} (hc : Course asked b β)
    (hd : b.standing.Dated) (ht : b.talking? ⟨c, leg⟩ = some (n, l, d))
    (hch : (b.member n).channel = some ch) (hg : ch.generation ≠ (b.member n).generation) :
    Traffic asked b β (b.conclude n ⟨c, leg⟩ (.error .replaced)) β'
      (Deed.event? ⟨b, .supersede c leg⟩) := by
  obtain ⟨legs, next, leg', g, hp, hl, hch'⟩ := hc.exchange ht
  obtain rfl := Option.some.inj (hch.symm.trans hch')
  rw [Deed.event?_supersede ht]
  refine .failed _ l _ (.inl (speaks?_of_talking? ht))
    (fun u => speaks?_conclude (fun _ => rfl) hp hl n _ u)
    (fun k => ⟨congrArg _ (carried_setLeg _ _ _ k), fun _ => carried_setLeg _ _ _ k⟩)
    (.inr (.inl ⟨n, ⟨l, g⟩, ?_, rfl, ?_⟩))
  · rw [standing_conclude, channel_standing, hch]
  · rw [standing_conclude]
    -- a connection that is not current is older than what was announced
    refine Nat.lt_of_le_of_ne (hd n ⟨l, g⟩ (by rw [channel_standing, hch])) ?_
    rwa [generation_standing]

theorem traffic_expire {leg n l d : Nat} (hc : Course asked b β)
    (ht : b.talking? ⟨c, leg⟩ = some (n, l, d)) :
    Traffic asked b β (b.settle n ⟨c, leg⟩ (.error .timedOut)) β'
      (Deed.event? ⟨b, .expire c leg⟩) := by
  obtain ⟨legs, next, leg', g, hp, hl, hch⟩ := hc.exchange ht
  rw [Deed.event?_expire ht]
  exact .failed _ l _ (.inl (speaks?_of_talking? ht))
    (fun u => speaks?_settle (fun _ => rfl) hp hl n _ u)
    (fun k => ⟨congrArg _ (carried_settle b n _ _ k), fun _ => carried_settle b n _ _ k⟩)
    (spent_settle hc.held rfl hch _ _)

/-- A fresh connection has said who it is, or it has not. -/
theorem traffic_hears {a : Broker Result} {m : Move Result} {l d : Nat} {o : Outcome}
    {next : Outcome → Program Result} (hc : Course asked b β)
    (hp : b.phase? c = some (.greeting l d next)) (hh : b.Hears c l o m)
    (ha : ∀ k, a.phase? k = b.phase? k)
    (hl : ∀ k, (a.carried k).1 = (b.carried k).1 ∧ (k ≠ l → a.carried k = b.carried k))
    (hok : ∀ raw, o = .ok raw → (b.carried l).2 = raw ∧ raw ≠ [] ∧ (a.carried l).2 = [])
    (he : Effect asked b m β (a.setPhase c (.running (next o))).standing β') :
    Traffic asked b β (a.setPhase c (.running (next o))) β' (Deed.event? ⟨b, m⟩) := by
  have hβ := hc.carries_of_hears hh
  rw [hh.event?]
  refine .ended _ l o (.inl ?_) (fun u => ?_) hl hok fun s ho => .inr (.inr ⟨c, ?_, ?_⟩)
  · exact (speaks?_eq (t := ⟨c, 0⟩) hp).trans rfl
  · rw [speaks?_setPhase ha hp]
    by_cases hu : u.call = c
    · rw [if_pos hu, not_speaks?_running]
      by_cases hi : u.leg = 0
      · rw [if_pos (by cases u; cases hu; cases hi; rfl)]
      · rw [if_neg fun e => hi (congrArg Ticket.leg e), speaks?_eq (hu ▸ hp)]
        exact (if_neg hi).symm
    · rw [if_neg hu, if_neg fun e => hu (congrArg Ticket.call e)]
  · rw [hc.hears hh he, Function.update_self, ho]
    rfl
  · rw [(hc.calls.suits c).unknown l hβ]
    rfl

theorem traffic_hear {l d : Nat} {next : Outcome → Program Result} {o : Outcome} {rest : Link}
    (hc : Course asked b β) (hp : b.phase? c = some (.greeting l d next))
    (hrec : (b.link l).receive? = some (o, rest))
    (he : Effect asked b (.hear c) β
      ((b.changeLink l fun _ => rest).setPhase c (.running (next o))).standing β') :
    Traffic asked b β ((b.changeLink l fun _ => rest).setPhase c (.running (next o))) β'
      (Deed.event? ⟨b, .hear c⟩) := by
  have hh : b.Hears c l o (.hear c) := ⟨rfl, ⟨d, next, hp⟩, rest, hrec⟩
  have hopen : b.standing.IsOpen l := by
    refine hc.held.hand c l ?_
    rw [hc.carries_of_hears hh]
    rfl
  refine traffic_hears (a := b.changeLink l fun _ => rest) hc hp hh (fun _ => rfl)
    (fun k => ⟨sent_of_receive? hrec k, fun hk => carried_changeLink_ne b _ hk⟩)
    (fun raw ho => ?_) he
  subst ho
  exact carried_of_receive? hopen hrec

theorem traffic_giveUp {l d : Nat} {next : Outcome → Program Result} (hc : Course asked b β)
    (hp : b.phase? c = some (.greeting l d next))
    (he : Effect asked b (.giveUp c) β
      (b.setPhase c (.running (next (.error .timedOut)))).standing β') :
    Traffic asked b β (b.setPhase c (.running (next (.error .timedOut)))) β'
      (Deed.event? ⟨b, .giveUp c⟩) :=
  traffic_hears (a := b) hc hp ⟨rfl, ⟨d, next, hp⟩, rfl⟩ (fun _ => rfl)
    (fun k => ⟨rfl, fun _ => rfl⟩) (fun _ e => by cases e) he

/-! ## Workers -/

theorem traffic_signal (l : Nat) (s : Signal) :
    Traffic asked b β (b.changeLink l (Link.arrive s)) β' (Deed.event? ⟨b, .signal l s⟩) := by
  cases s with
  | bytes bytes =>
    simp only [Deed.event?]
    split
    · rename_i h
      obtain ⟨hlt, hopen, hend⟩ := h
      refine .answered l bytes (fun _ => rfl) fun k => ?_
      rw [carried, link_changeLink]
      by_cases hk : k = l
      · subst hk
        rw [if_pos ⟨rfl, hlt⟩, if_pos rfl]
        simp only [Link.arrive, hopen, hend, Bool.false_or, bne_self_eq_false, Bool.false_eq_true,
          if_false]
        rfl
      · rw [if_neg fun e => hk e.1, if_neg hk]
        rfl
    · rename_i h
      refine .quiet (fun _ => rfl) fun k => ?_
      rw [carried, carried, link_changeLink]
      split
      · rename_i hk
        obtain ⟨rfl, hlt⟩ := hk
        have hno : ((b.link k).closed || (b.link k).inbox.ending != .stillOpen) = true := by
          by_contra hno
          simp only [Bool.or_eq_true, bne_iff_ne, ne_eq, not_or, Decidable.not_not,
            Bool.not_eq_true] at hno
          exact h ⟨hlt, hno⟩
        simp only [Link.arrive, hno, if_true]
      · rfl
  | ended | reset =>
    refine .quiet (fun _ => rfl) fun k => carried_changeLink b l k fun _ => ?_
    simp only [Link.arrive]
    split <;> exact ⟨rfl, rfl⟩

end Broker

open Broker in
/-- Every move does on connections what can be seen of it. -/
theorem Broker.Stride.traffic {asked : Nat → Operation} {b b' : Broker Result} {m : Move Result}
    {β β' : Nat → Burden} (h : Stride asked b m β b' β') (hd : b.standing.Dated)
    (ha : ∀ c, m ≠ .abandon c) : Traffic asked b β b' β' (Deed.event? ⟨b, m⟩) := by
  obtain ⟨hc, hm, he, -⟩ := h
  cases makes_of_step hm with
  | starts program refs brings =>
    refine .quiet (fun u => ?_) fun _ => rfl
    simp only [speaks?, phase?]
    by_cases hu : u.call = b.calls.length
    · rw [hu, List.getElem?_concat_length, List.getElem?_eq_none (Nat.le_refl _)]
      rfl
    · rw [getElem?_concat_ne _ _ hu]
  | runs hp => exact traffic_run hc hp he
  | turns hn hp => exact traffic_turn hn hp
  | begins hn hp hl => exact traffic_beginExchange hc hn hp hl
  | receives ht hrec => exact traffic_receive hc ht hrec
  | supersedes ht hch hg => exact traffic_supersede hc hd ht hch hg
  | expires ht _ => exact traffic_expire hc ht
  | hears hp hrec => exact traffic_hear hc hp hrec he
  | givesUp hp _ => exact traffic_giveUp hc hp he
  | abandons _ _ _ => exact absurd rfl (ha _)
  | accepts => exact .quiet (fun _ => rfl) b.carried_accept
  | signals l s => exact traffic_signal l s
  | @releases n _ _ =>
    exact .quiet (fun _ => speaks?_congr (phase?_disconnect ..)) (b.carried_disconnect n)
  | passes time => exact .quiet (fun _ => rfl) fun _ => rfl

end WorkerBroker
