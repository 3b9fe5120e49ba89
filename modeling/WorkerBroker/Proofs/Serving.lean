import WorkerBroker.Proofs.Queue
/-!
# How members serve calls

While a command is on its way its ticket is in front of the queue of its member, and the connection
it was written on is still that of the member (`Broker.TalksOk`). So there is one exchange at a time
with a member, and nobody changes the member's connection under it. Together with `QueuesOk` this
is `Broker.InOrder`, which is kept by everything that calls do: the lemmas go through the ways in
which a call begins to wait, is served, and is done.
-/

namespace WorkerBroker

namespace Broker

variable {ω : Type} {b : Broker ω}

/-! ## Commands that have been written -/

theorem talking?_eq {t : Ticket} {legs : List Leg} {next : List Outcome → Program ω}
    (h : b.phase? t.call = some (.conversing legs next)) :
    b.talking? t = legs[t.leg]?.bind Leg.talk? := by
  simp only [talking?, h]
  rcases legs[t.leg]? with _ | ⟨r, command, state⟩
  · rfl
  · cases state <;> rfl

theorem talking?_congr {b' : Broker ω} {t : Ticket} (h : b'.phase? t.call = b.phase? t.call) :
    b'.talking? t = b.talking? t := by
  simp only [talking?, h]

/-- What is talking is a command of a call that has commands on their way. -/
theorem leg_of_talking? {t : Ticket} {n l d : Nat} (h : b.talking? t = some (n, l, d)) :
    ∃ legs next leg, b.phase? t.call = some (.conversing legs next) ∧ legs[t.leg]? = some leg ∧
      leg.member.number = n ∧ leg.state = .talking l d := by
  simp only [talking?] at h
  split at h
  · rename_i legs next hp
    split at h
    · rename_i r command l' d' hl
      cases h
      exact ⟨legs, next, _, hp, hl, rfl, rfl⟩
    · cases h
  · cases h

/-- Nothing talks in a call whose commands are all over. -/
theorem talking?_of_phaseOf {t : Ticket} {legs : List Leg} {next : List Outcome → Program ω}
    (hp : b.phase? t.call = some (phaseOf legs next)) :
    b.talking? t = legs[t.leg]?.bind Leg.talk? := by
  rcases hm : legs.mapM Leg.outcome? with _ | outcomes
  · simp only [phaseOf, hm] at hp
    exact talking?_eq hp
  · simp only [phaseOf, hm] at hp
    simp only [talking?, hp]
    rcases hl : legs[t.leg]? with _ | l
    · rfl
    · exact (Leg.talk?_eq_none (Leg.outcome?_ne_none hm l (List.mem_of_getElem? hl))).symm

theorem talking?_setPhase_phaseOf {c : Nat} {p : Phase ω} {legs : List Leg}
    {next : List Outcome → Program ω} (hp : b.phase? c = some p) (t : Ticket) :
    (b.setPhase c (phaseOf legs next)).talking? t =
      if t.call = c then legs[t.leg]?.bind Leg.talk? else b.talking? t := by
  by_cases ht : t.call = c
  · subst ht
    rw [if_pos rfl]
    exact talking?_of_phaseOf (phase?_setPhase_self hp)
  · rw [if_neg ht, talking?_congr (phase?_setPhase_ne b _ ht)]

/-- What talks waits. -/
theorem waits_of_talking? {t : Ticket} {n l d : Nat} (h : b.talking? t = some (n, l, d)) :
    b.Waits t n := by
  obtain ⟨legs, next, leg, hp, hl, hn, hs⟩ := leg_of_talking? h
  refine ⟨_, hp, leg, hl, hn, ?_⟩
  simp only [Leg.outcome?, hs]

/-- A call in a phase without commands does not talk. -/
theorem ne_of_talking?_setPhase {c : Nat} {p : Phase ω} {t : Ticket} {x : Nat × Nat × Nat}
    (hp : b.phase? c = some p) (ht : (b.setPhase c .abandoned).talking? t = some x) :
    t.call ≠ c := by
  rintro rfl
  obtain ⟨n, l, d⟩ := x
  obtain ⟨legs, next, leg, hl, -⟩ := leg_of_talking? ht
  rw [phase?_setPhase_self hp] at hl
  cases hl

/-- Every exchange that goes on is in front of the queue of its member and on its connection. -/
structure TalksOk (b : Broker ω) : Prop where
  front : ∀ t n l d, b.talking? t = some (n, l, d) → ∃ rest, b.queue n = t :: rest
  channel : ∀ t n l d, b.talking? t = some (n, l, d) → ∃ g, (b.member n).channel = some ⟨l, g⟩

namespace TalksOk

/-- Exchanges go on undisturbed if nobody is served and no connection is changed under them. -/
theorem congr {b' : Broker ω} (h : b.TalksOk) (hb : ∀ t n l d, b'.talking? t = some (n, l, d) →
    b.talking? t = some (n, l, d) ∧ (∃ new, b'.queue n = b.queue n ++ new) ∧
      (b'.member n).channel = (b.member n).channel) : b'.TalksOk := by
  constructor
  · intro t n l d ht
    obtain ⟨ht', ⟨new, hq⟩, -⟩ := hb t n l d ht
    obtain ⟨rest, hr⟩ := h.front t n l d ht'
    exact ⟨rest ++ new, by rw [hq, hr, List.cons_append]⟩
  · intro t n l d ht
    obtain ⟨ht', -, hc⟩ := hb t n l d ht
    rw [hc]
    exact h.channel t n l d ht'

end TalksOk

/-! ### The end of an exchange -/

theorem conclude_eq {n : Nat} {t : Ticket} {legs : List Leg} {next : List Outcome → Program ω}
    (hp : b.phase? t.call = some (.conversing legs next)) (o : Outcome) :
    b.conclude n t o = (b.serveNext n).setPhase t.call
      (phaseOf (legs.modify t.leg fun l => { l with state := .ended o }) next) := by
  have hp' : (b.serveNext n).phase? t.call = some (.conversing legs next) := hp
  simp only [conclude, setLeg, hp']

theorem talking?_conclude {n : Nat} {t : Ticket} {legs : List Leg}
    {next : List Outcome → Program ω} (hp : b.phase? t.call = some (.conversing legs next))
    (o : Outcome) (u : Ticket) :
    (b.conclude n t o).talking? u = if u = t then none else b.talking? u := by
  rw [conclude_eq hp, talking?_setPhase_phaseOf (b := b.serveNext n) hp]
  by_cases hu : u.call = t.call
  · rw [if_pos hu, talking?_eq (hu ▸ hp)]
    by_cases hl : u.leg = t.leg
    · obtain rfl : u = t := by cases u; cases t; cases hu; cases hl; rfl
      rw [if_pos rfl, List.getElem?_modify_eq]
      rcases legs[u.leg]? with _ | l <;> rfl
    · rw [if_neg fun e => hl (congrArg Ticket.leg e), List.getElem?_modify_ne _ _ (Ne.symm hl)]
  · rw [if_neg hu, if_neg fun e => hu (congrArg Ticket.call e)]
    rfl

theorem QueuesOk.conclude {n : Nat} {t : Ticket} {rest : List Ticket} {legs : List Leg}
    {next : List Outcome → Program ω} (h : b.QueuesOk) (hn : b.queue n = t :: rest)
    (hp : b.phase? t.call = some (.conversing legs next)) (o : Outcome) :
    (b.conclude n t o).QueuesOk := by
  rw [conclude_eq hp]
  refine h.pop hn (fun k => ?_) fun k u => ?_
  · rw [queue_setPhase, queue_serveNext, hn]
    rfl
  · by_cases hu : u.call = t.call
    · have hp' : (b.serveNext n).phase? t.call = some (.conversing legs next) := hp
      rw [waits_of_phase (by rw [hu]; exact phase?_setPhase_self hp'), waits_of_phase (hu ▸ hp),
        waitsAt_phaseOf]
      by_cases hl : u.leg = t.leg
      · obtain rfl : u = t := by cases u; cases t; cases hu; cases hl; rfl
        refine ⟨?_, fun e => absurd rfl e.2⟩
        rintro ⟨l, hl, -, ho⟩
        rw [List.getElem?_modify_eq, Option.map_eq_map, Option.map_eq_some_iff] at hl
        obtain ⟨l', -, rfl⟩ := hl
        cases ho
      · have hne : u ≠ t := fun e => hl (congrArg Ticket.leg e)
        simp only [Phase.WaitsAt, List.getElem?_modify_ne _ _ (Ne.symm hl)]
        exact ⟨fun e => ⟨e, hne⟩, And.left⟩
    · rw [waits_congr (phase?_setPhase_ne _ _ hu)]
      exact ⟨fun e => ⟨e, fun e => hu (congrArg Ticket.call e)⟩, And.left⟩

/-- The ticket in front of a queue is served, and what it stood for does not talk any more. -/
theorem TalksOk.pop {b' : Broker ω} {n : Nat} {t : Ticket} {rest : List Ticket} (h : b.TalksOk)
    (hn : b.queue n = t :: rest) (hq : ∀ k, k ≠ n → b'.queue k = b.queue k)
    (hc : ∀ k, k ≠ n → (b'.member k).channel = (b.member k).channel)
    (ht : ∀ u x, b'.talking? u = some x → u ≠ t ∧ b.talking? u = some x) : b'.TalksOk := by
  refine h.congr fun u k l d hu => ?_
  obtain ⟨hne, hu⟩ := ht u _ hu
  have hk : k ≠ n := by
    rintro rfl
    obtain ⟨rest', hr⟩ := h.front u k l d hu
    rw [hn] at hr
    exact hne (List.cons.inj hr).1.symm
  exact ⟨hu, ⟨[], by rw [hq k hk, List.append_nil]⟩, hc k hk⟩

theorem member_disconnect_ne (b : Broker ω) {n k : Nat} (h : k ≠ n) :
    (b.disconnect n).member k = b.member k := by
  unfold disconnect
  split
  · rfl
  · rw [member_changeMember, if_neg fun e => h e.1]
    rfl

theorem member_serveNext_ne (b : Broker ω) {n k : Nat} (h : k ≠ n) :
    (b.serveNext n).member k = b.member k := by
  rw [serveNext, member_changeMember, if_neg fun e => h e.1]

theorem member_take_ne (b : Broker ω) {n k : Nat} (turn : Turn) (h : k ≠ n) :
    (b.take n turn).2.member k = b.member k := by
  cases turn with
  | offer g l =>
    simp only [take]
    split
    · rfl
    · split
      · rfl
      · change ((b.disconnect n).changeMember n _).member k = _
        rw [member_changeMember, if_neg fun e => h e.1, member_disconnect_ne b h]
  | shut =>
    change ((b.disconnect n).changeMember n _).member k = _
    rw [member_changeMember, if_neg fun e => h e.1, member_disconnect_ne b h]
  | retire =>
    simp only [take]
    split
    · rfl
    · change (b.changeMember n _).member k = _
      rw [member_changeMember, if_neg fun e => h e.1]
  | look => rfl

/-- No act takes a connection from a member. -/
theorem channel_act (a : Act) {n : Nat} {ch : Channel} (h : (b.member n).channel = some ch) :
    ((b.act a).2.member n).channel = some ch := by
  cases a with
  | enrol kind id link =>
    have hn : n < b.members.length := by
      by_contra hn
      rw [member, List.getElem?_eq_none (by omega)] at h
      cases h
    rw [← channel_standing, standing_enrol, Standing.member_enrol_old _ _ _ (by simpa using hn),
      channel_standing, h]
  | strike r =>
    simp only [act]
    split <;> exact h
  | dismiss kind id =>
    simp only [act]
    split
    · split <;> exact h
    · exact h
  | advance r =>
    simp only [act]
    rw [member_changeMember]
    split
    · rename_i hn
      rw [hn.1] at h
      exact h
    · exact h
  | _ => exact h

theorem queue_withdraw (b : Broker ω) (c n : Nat) :
    (b.withdraw c).queue n = (b.queue n).filter fun t => t.call ≠ c := by
  simp only [queue, member, withdraw, List.getElem?_map]
  rcases b.members[n]? with _ | m <;> rfl

/-- The state is in order as far as members serve calls. -/
structure InOrder (b : Broker ω) : Prop extends b.QueuesOk, b.TalksOk

namespace InOrder

/-- Nothing has happened. -/
theorem fresh (timeout : Nat) : (fresh timeout : Broker ω).InOrder where
  nodup := fun _ => List.nodup_nil
  mem_iff := fun n t => iff_of_false List.not_mem_nil (by rintro ⟨p, hp, -⟩; cases hp)
  front := fun t n l d h => by cases h
  channel := fun t n l d h => by cases h

/-- A ticket is over, and the member keeps its connection. -/
theorem conclude {n : Nat} {t : Ticket} {rest : List Ticket} {legs : List Leg}
    {next : List Outcome → Program ω} (h : b.InOrder) (hn : b.queue n = t :: rest)
    (hp : b.phase? t.call = some (.conversing legs next)) (o : Outcome) :
    (b.conclude n t o).InOrder := by
  refine ⟨h.toQueuesOk.conclude hn hp _, h.toTalksOk.pop hn (fun k hk => ?_) (fun k hk => ?_)
    fun u x hu => ?_⟩
  · rw [conclude_eq hp, queue_setPhase, queue_serveNext, if_neg hk]
  · rw [conclude_eq hp]
    exact congrArg Member.channel (b.member_serveNext_ne hk)
  · rw [talking?_conclude hp] at hu
    split at hu
    · cases hu
    · exact ⟨‹_›, hu⟩

/-- An exchange is over; the connection of the member may be given up with it. -/
theorem settle {n : Nat} {t : Ticket} {rest : List Ticket} {legs : List Leg}
    {next : List Outcome → Program ω} (h : b.InOrder) (hn : b.queue n = t :: rest)
    (hp : b.phase? t.call = some (.conversing legs next)) (o : Outcome) :
    (b.settle n t o).InOrder := by
  cases o with
  | ok raw => exact h.conclude hn hp _
  | error s =>
    have hp' : (b.disconnect n).phase? t.call = some (.conversing legs next) := by simpa using hp
    have hn' : (b.disconnect n).queue n = t :: rest := by simpa using hn
    have hq : (b.disconnect n).QueuesOk :=
      h.toQueuesOk.congr (b.queue_disconnect n) fun _ _ => waits_congr (b.phase?_disconnect n _)
    refine ⟨hq.conclude hn' hp' _, h.toTalksOk.pop hn (fun k hk => ?_) (fun k hk => ?_)
      fun u x hu => ?_⟩
    · rw [Broker.settle, conclude_eq hp', queue_setPhase, queue_serveNext, if_neg hk,
        queue_disconnect]
    · rw [Broker.settle, conclude_eq hp']
      change (((b.disconnect n).serveNext n).member k).channel = _
      rw [member_serveNext_ne _ hk, member_disconnect_ne b hk]
    · rw [Broker.settle, talking?_conclude hp'] at hu
      split at hu
      · cases hu
      · exact ⟨‹_›, (talking?_congr (b.phase?_disconnect n _)).symm.trans hu⟩

/-- A call has had its turn on a member. -/
theorem turn {n : Nat} {t : Ticket} {rest : List Ticket} {r : Ref} {turn : Turn}
    {next : turn.Answer → Program ω} (h : b.InOrder) (hn : b.queue n = t :: rest)
    (hp : b.phase? t.call = some (.entering r turn next)) (p : Program ω) :
    (((b.take n turn).2.serveNext n).setPhase t.call (.running p)).InOrder := by
  have hp' : ((b.take n turn).2.serveNext n).phase? t.call = some (.entering r turn next) :=
    (phase?_take ..).trans hp
  have hleg : t.leg = 0 := (h.waitsAt hn hp).2
  constructor
  · refine h.toQueuesOk.pop hn (fun k => ?_) fun k u => ?_
    · rw [queue_setPhase, queue_serveNext, queue_take, queue_take, hn]
      rfl
    · by_cases hu : u.call = t.call
      · rw [waits_of_phase (by rw [hu]; exact phase?_setPhase_self hp'), waits_of_phase (hu ▸ hp)]
        refine ⟨False.elim, ?_⟩
        rintro ⟨⟨-, hl⟩, hne⟩
        refine hne ?_
        cases u
        cases t
        cases hu
        cases hl
        cases hleg
        rfl
      · rw [waits_congr (phase?_setPhase_ne _ _ hu)]
        change (b.take n turn).2.Waits u k ↔ _
        rw [waits_congr (phase?_take ..)]
        exact ⟨fun e => ⟨e, fun e => hu (congrArg Ticket.call e)⟩, And.left⟩
  · refine h.toTalksOk.pop hn (fun k hk => ?_) (fun k hk => ?_) fun u x hu => ?_
    · rw [queue_setPhase, queue_serveNext, if_neg hk, queue_take]
    · change (((b.take n turn).2.serveNext n).member k).channel = _
      rw [member_serveNext_ne _ hk, member_take_ne b turn hk]
    · have hne : u.call ≠ t.call := by
        intro e
        obtain ⟨legs, next, leg, hc, -⟩ := leg_of_talking? (b := _) hu
        rw [e, phase?_setPhase_self hp'] at hc
        cases hc
      refine ⟨fun e => hne (congrArg Ticket.call e), ?_⟩
      rw [← hu]
      refine (talking?_congr ?_).symm
      rw [phase?_setPhase_ne _ _ hne]
      exact phase?_take ..

/-! ### Calls that go on by themselves -/

/-- The queues and the calls are as before, and no member that is talked to has lost its
connection. -/
theorem congr {b' : Broker ω} (h : b.InOrder) (hq : ∀ n, b'.queue n = b.queue n)
    (hp : ∀ c, b'.phase? c = b.phase? c)
    (hc : ∀ n ch, (b.member n).channel = some ch → (b'.member n).channel = some ch) :
    b'.InOrder where
  toQueuesOk := h.toQueuesOk.congr hq fun _ _ => waits_congr (hp _)
  toTalksOk := h.toTalksOk.congr fun t n l d ht => by
    rw [talking?_congr (hp _)] at ht
    obtain ⟨g, hg⟩ := h.channel t n l d ht
    exact ⟨ht, ⟨[], by rw [hq, List.append_nil]⟩, by rw [hg, hc n _ hg]⟩

/-- A call that did not wait goes on without waiting. -/
theorem setPhase {c : Nat} {p q : Phase ω} (h : b.InOrder) (hp : b.phase? c = some p)
    (hpw : ∀ n i, ¬p.WaitsAt n i) (hqw : ∀ n i, ¬q.WaitsAt n i) : (b.setPhase c q).InOrder where
  toQueuesOk := h.toQueuesOk.setPhase hp fun n i => iff_of_false (hpw n i) (hqw n i)
  toTalksOk := h.toTalksOk.congr fun t n l d ht => by
    refine ⟨?_, ⟨[], (List.append_nil _).symm⟩, rfl⟩
    by_cases hc : t.call = c
    · subst hc
      obtain ⟨q', hq', hw⟩ := waits_of_talking? ht
      rw [phase?_setPhase_self hp] at hq'
      cases hq'
      exact absurd hw (hqw n t.leg)
    · rw [← ht, talking?_congr (phase?_setPhase_ne b q hc)]

theorem act (h : b.InOrder) (a : Act) : (b.act a).2.InOrder :=
  h.congr (b.queue_act a) (b.phase?_act a) fun _ _ => channel_act a

theorem meet (h : b.InOrder) (c : Nat) (refs : List Ref) : (b.meet c refs).InOrder :=
  h.congr (fun _ => rfl) (b.phase?_meet c · refs) fun _ _ hc => hc

theorem changeLink (h : b.InOrder) (l : Nat) (f : Link → Link) : (b.changeLink l f).InOrder :=
  h.congr (fun _ => rfl) (fun _ => rfl) fun _ _ hc => hc

/-- A call begins to wait for its turn on a member. -/
theorem enter {c : Nat} {p : Phase ω} {r : Ref} {turn : Turn} {next : turn.Answer → Program ω}
    (h : b.InOrder) (hp : b.phase? c = some p) (hpw : ∀ n i, ¬p.WaitsAt n i)
    (hr : r.number < b.members.length) :
    ((b.queueUp r.number ⟨c, 0⟩).setPhase c (.entering r turn next)).InOrder where
  toQueuesOk := h.toQueuesOk.enter hp hpw hr
  toTalksOk := h.toTalksOk.congr fun t n l d ht => by
    have hc : t.call ≠ c := by
      rintro rfl
      obtain ⟨legs, next', leg, hl, -⟩ := leg_of_talking? ht
      rw [phase?_setPhase_self (b := b.queueUp _ _) hp] at hl
      cases hl
    refine ⟨?_, ?_, ?_⟩
    · rw [← ht, talking?_congr (phase?_setPhase_ne _ _ hc)]
      rfl
    · rw [queue_setPhase, queue_queueUp]
      split
      · rename_i hn
        exact ⟨_, by rw [hn.1]⟩
      · exact ⟨[], (List.append_nil _).symm⟩
    · change ((b.queueUp r.number ⟨c, 0⟩).member n).channel = _
      rw [← channel_standing, standing_queueUp, channel_standing]

/-- A call sends its commands on their way. -/
theorem converse {c : Nat} {p : Phase ω} {commands : List (Ref × Command)}
    {next : List Outcome → Program ω} (h : b.InOrder) (hp : b.phase? c = some p)
    (hpw : ∀ n i, ¬p.WaitsAt n i) (hr : ∀ q ∈ commands, q.1.number < b.members.length) :
    ((b.queueLegs c 0 commands).setPhase c
      (phaseOf (commands.map fun (r, command) => ⟨r, command, .queued⟩) next)).InOrder where
  toQueuesOk := h.toQueuesOk.converse hp hpw hr
  toTalksOk := h.toTalksOk.congr fun t n l d ht => by
    have hp' : (b.queueLegs c 0 commands).phase? c = some p := (phase?_queueLegs ..).trans hp
    rw [talking?_setPhase_phaseOf hp'] at ht
    split at ht
    · -- a command that has just been sent on its way has not been written
      rw [List.getElem?_map] at ht
      rcases hq : commands[t.leg]? with _ | q <;> rw [hq] at ht <;> cases ht
    · refine ⟨?_, queueLegs_append c 0 commands b n, ?_⟩
      · rw [← ht]
        exact (talking?_congr (phase?_queueLegs ..)).symm
      · change ((b.queueLegs c 0 commands).member n).channel = _
        rw [← channel_standing, standing_queueLegs, channel_standing]

/-- A command is written on the connection of its member. -/
theorem talk {n : Nat} {t : Ticket} {rest : List Ticket} {legs : List Leg} {leg : Leg}
    {next : List Outcome → Program ω} {ch : Channel} (h : b.InOrder)
    (hn : b.queue n = t :: rest) (hp : b.phase? t.call = some (.conversing legs next))
    (hl : legs[t.leg]? = some leg) (hlo : leg.outcome? = none)
    (hc : (b.member n).channel = some ch) (f : Link → Link) (deadline : Nat) :
    ((b.changeLink ch.link f).setLeg t (.talking ch.link deadline)).InOrder := by
  have hnum : leg.member.number = n := by
    obtain ⟨l', hl', hnum, -⟩ := h.waitsAt hn hp
    rw [hl] at hl'
    cases hl'
    exact hnum
  have hp' : (b.changeLink ch.link f).phase? t.call = some (.conversing legs next) := hp
  simp only [setLeg, hp']
  refine ⟨(h.changeLink _ f).toQueuesOk.setPhase hp' fun k i => ?_, ?_, ?_⟩
  · rw [waitsAt_phaseOf]
    by_cases hi : i = t.leg
    · subst hi
      simp only [Phase.WaitsAt, List.getElem?_modify_eq, hl, Option.map_eq_map, Option.map_some,
        Option.some.injEq, exists_eq_left']
      exact and_congr_right fun _ => ⟨fun _ => rfl, fun _ => hlo⟩
    · simp only [Phase.WaitsAt, List.getElem?_modify_ne _ _ (Ne.symm hi)]
  · intro u k l d hu
    rw [talking?_setPhase_phaseOf hp'] at hu
    split at hu
    · rename_i hcall
      by_cases hi : u.leg = t.leg
      · rw [hi, List.getElem?_modify_eq, hl] at hu
        cases hu
        obtain rfl : u = t := by cases u; cases t; cases hcall; cases hi; rfl
        exact ⟨rest, hnum ▸ hn⟩
      · rw [List.getElem?_modify_ne _ _ (Ne.symm hi), ← talking?_eq (hcall ▸ hp)] at hu
        exact h.front u k l d hu
    · exact h.front u k l d hu
  · intro u k l d hu
    rw [talking?_setPhase_phaseOf hp'] at hu
    split at hu
    · rename_i hcall
      by_cases hi : u.leg = t.leg
      · rw [hi, List.getElem?_modify_eq, hl] at hu
        cases hu
        exact ⟨ch.generation, hnum ▸ hc⟩
      · rw [List.getElem?_modify_ne _ _ (Ne.symm hi), ← talking?_eq (hcall ▸ hp)] at hu
        exact h.channel u k l d hu
    · exact h.channel u k l d hu

/-! ### Calls that come and go -/

theorem start (h : b.InOrder) (program : Program ω) (refs : List Ref) (brings : Option Nat) :
    InOrder { b with calls := b.calls ++ [⟨.running program, refs, brings⟩] } := by
  have hphase : ∀ c p, (b.calls ++ [⟨.running program, refs, brings⟩])[c]?.map Call.phase = some p →
      b.phase? c = some p ∨ p = .running program := by
    intro c p hp
    rcases Nat.lt_trichotomy c b.calls.length with hc | hc | hc
    · rw [List.getElem?_append_left hc] at hp
      exact .inl hp
    · subst hc
      simp only [List.getElem?_concat_length, Option.map_some, Option.some.injEq] at hp
      exact .inr hp.symm
    · rw [List.getElem?_eq_none (by simp; omega)] at hp
      cases hp
  have hold : ∀ c p, b.phase? c = some p →
      (b.calls ++ [⟨.running program, refs, brings⟩])[c]?.map Call.phase = some p := by
    intro c p hp
    have hc : c < b.calls.length := by
      by_contra hc
      rw [phase?, List.getElem?_eq_none (by omega)] at hp
      cases hp
    rw [List.getElem?_append_left hc]
    exact hp
  refine ⟨h.toQueuesOk.congr (fun _ => rfl) fun n t => ⟨?_, ?_⟩,
    h.toTalksOk.congr fun t n l d ht => ⟨?_, ⟨[], (List.append_nil _).symm⟩, rfl⟩⟩
  · rintro ⟨p, hp, hw⟩
    rcases hphase _ p hp with hp | rfl
    · exact ⟨p, hp, hw⟩
    · exact hw.elim
  · rintro ⟨p, hp, hw⟩
    exact ⟨p, hold _ p hp, hw⟩
  · obtain ⟨legs, next, leg, hp, hl, -⟩ := leg_of_talking? ht
    rcases hphase _ _ hp with hp' | hp'
    · rw [talking?_eq hp']
      rw [talking?_eq hp] at ht
      exact ht
    · cases hp'

/-- A call leaves all queues. -/
theorem abandon (h : b.InOrder) {c : Nat} {p : Phase ω} (hp : b.phase? c = some p) :
    ((b.withdraw c).setPhase c .abandoned).InOrder := by
  have hq := queue_withdraw b c
  have hch : ∀ n, ((b.withdraw c).member n).channel = (b.member n).channel := by
    intro n
    simp only [member, withdraw, List.getElem?_map]
    rcases b.members[n]? with _ | m <;> rfl
  have hp' : (b.withdraw c).phase? c = some p := hp
  refine ⟨⟨fun n => ?_, fun n t => ?_⟩, ⟨fun t n l d ht => ?_, fun t n l d ht => ?_⟩⟩
  · rw [queue_setPhase, hq]
    exact (h.nodup n).filter _
  · rw [queue_setPhase, hq, List.mem_filter, h.mem_iff]
    by_cases hc : t.call = c
    · subst hc
      rw [waits_of_phase (phase?_setPhase_self hp')]
      refine ⟨fun e => ?_, False.elim⟩
      exact absurd e.2 (by simp)
    · rw [waits_congr (phase?_setPhase_ne _ _ hc)]
      exact ⟨And.left, fun e => ⟨e, by simpa using hc⟩⟩
  · have hc : t.call ≠ c := ne_of_talking?_setPhase hp' ht
    rw [talking?_congr (phase?_setPhase_ne _ _ hc)] at ht
    obtain ⟨rest, hr⟩ := h.front t n l d ht
    refine ⟨rest.filter fun t => t.call ≠ c, ?_⟩
    rw [queue_setPhase, hq, hr, List.filter_cons_of_pos (by simpa using hc)]
  · have hc : t.call ≠ c := ne_of_talking?_setPhase hp' ht
    rw [talking?_congr (phase?_setPhase_ne _ _ hc)] at ht
    obtain ⟨g, hg⟩ := h.channel t n l d ht
    exact ⟨g, (hch n).trans hg⟩

/-- A member that nobody talks to loses its connection. -/
theorem release (h : b.InOrder) {n : Nat} (hn : ∀ t l d, b.talking? t ≠ some (n, l, d)) :
    (b.disconnect n).InOrder where
  toQueuesOk := h.toQueuesOk.congr (b.queue_disconnect n) fun _ _ =>
    waits_congr (b.phase?_disconnect n _)
  toTalksOk := h.toTalksOk.congr fun t k l d ht => by
    rw [talking?_congr (b.phase?_disconnect n _)] at ht
    have hk : k ≠ n := fun e => hn t l d (e ▸ ht)
    exact ⟨ht, ⟨[], by rw [queue_disconnect, List.append_nil]⟩, by rw [member_disconnect_ne b hk]⟩

end InOrder

end Broker

end WorkerBroker
