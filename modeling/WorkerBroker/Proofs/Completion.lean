import WorkerBroker.Proofs.Endless
import WorkerBroker.Proofs.Services
/-!
# Calls come to their results

A worker may be silent for ever. What asks it something is not: a command is over at its deadline, a
member turns to the next ticket when the one in front is over, and a call goes on when all it has
waited for is there. So in a fair run every call comes to its result, unless it is given up
(`Service.comes_to_end`).

The step behind this is that there is always a duty to be done for a call: its own next act, or the
turn of a member that it waits for, or to end the exchange in front of it (`Broker.exists_duty`). A
ticket that waits only gets ahead in its queue (`Broker.place_step`), and the ticket in front leaves
it (`Endless.leaves_front`). So everything that a call waits for comes about (`Endless.advances`),
and the rest is an induction on what is left of its program.
-/

namespace WorkerBroker

namespace Broker

variable {ω : Type} {b b' : Broker ω} {m : Move ω} {c n : Nat} {t : Ticket}

/-! ## Places in a queue -/

theorem queue_setLeg (t : Ticket) (state : LegState) (b : Broker ω) (n : Nat) :
    (b.setLeg t state).queue n = b.queue n := by
  unfold setLeg
  split <;> rfl

theorem queue_conclude (k : Nat) (t : Ticket) (o : Outcome) (b : Broker ω) (n : Nat) :
    (b.conclude k t o).queue n = if n = k then (b.queue k).tail else b.queue n :=
  (queue_setLeg t _ _ n).trans (queue_serveNext b k n)

theorem queue_settle (k : Nat) (t : Ticket) (o : Outcome) (b : Broker ω) (n : Nat) :
    (b.settle k t o).queue n = if n = k then (b.queue k).tail else b.queue n := by
  cases o with
  | ok raw => exact queue_conclude k t _ b n
  | error s =>
    refine (queue_conclude k t _ _ n).trans ?_
    rw [queue_disconnect, queue_disconnect]

theorem queue_stepProgram (p : Program ω) (n : Nat) :
    ∃ new, (b.stepProgram c p).queue n = b.queue n ++ new := by
  cases p with
  | done x => exact ⟨[], (List.append_nil _).symm⟩
  | act a next => exact ⟨[], (b.queue_act a n).trans (List.append_nil _).symm⟩
  | wait w next =>
    cases w with
    | enter r turn =>
      change ∃ new, (b.queueUp r.number ⟨c, 0⟩).queue n = _
      rw [queue_queueUp]
      split
      · rename_i h
        exact ⟨[⟨c, 0⟩], by rw [h.1]⟩
      · exact ⟨[], (List.append_nil _).symm⟩
    | converse commands => exact queueLegs_append c 0 commands b n
    | greet link =>
      refine ⟨[], ?_⟩
      simp only [stepProgram, beginWait, List.append_nil]
      split <;> rfl

/-- What a move does to a queue: somebody joins it, the ticket in front leaves it, or a call that is
given up does. -/
theorem queue_step (hm : b.step m = some b') (n : Nat) :
    (∃ new, b'.queue n = b.queue n ++ new) ∨ b'.queue n = (b.queue n).tail ∨
      ∃ c, m = .abandon c ∧ b'.queue n = (b.queue n).filter fun t => t.call ≠ c := by
  have hsame : ∀ {q : List Ticket}, q = b.queue n → (∃ new, q = b.queue n ++ new) ∨
      q = (b.queue n).tail ∨ ∃ c, m = .abandon c ∧ q = (b.queue n).filter fun t => t.call ≠ c :=
    fun h => .inl ⟨[], h.trans (List.append_nil _).symm⟩
  have hserved : ∀ {q : List Ticket} {k : Nat},
      q = (if n = k then (b.queue k).tail else b.queue n) → (∃ new, q = b.queue n ++ new) ∨
      q = (b.queue n).tail ∨ ∃ c, m = .abandon c ∧ q = (b.queue n).filter fun t => t.call ≠ c := by
    intro q k h
    split at h
    · rename_i hk
      exact .inr (.inl (hk ▸ h))
    · exact hsame h
  cases makes_of_step hm with
  | runs hp => exact .inl (queue_stepProgram _ n)
  | @turns k _ _ _ turn _ _ _ =>
    refine hserved (k := k) ?_
    rw [queue_setPhase, queue_serveNext, queue_take, queue_take]
  | @begins k t _ _ _ command _ _ _ _ =>
    simp only [beginExchange]
    split
    · exact hserved (queue_conclude k t _ b n)
    · split
      · exact hserved (queue_conclude k t _ b n)
      · split
        · exact hsame (queue_setLeg t _ _ n)
        · exact hserved (queue_settle k t _ b n)
  | @receives _ _ k l _ o rest _ _ =>
    exact hserved (queue_settle k _ o (b.changeLink l fun _ => rest) n)
  | @supersedes _ _ k _ _ _ _ _ _ => exact hserved (queue_conclude k _ _ b n)
  | @expires _ _ k _ _ _ _ => exact hserved (queue_settle k _ _ b n)
  | @abandons c _ _ _ _ => exact .inr (.inr ⟨c, rfl, queue_withdraw b c n⟩)
  | @releases k _ _ => exact hsame (b.queue_disconnect k n)
  | starts _ _ _ | hears _ _ | givesUp _ _ | accepts | signals _ _ | passes _ => exact hsame rfl

/-- A ticket leaves a queue or keeps its place, but for tickets in front of it that leave. -/
theorem place_step (hq : b.QueuesOk) (hm : b.step m = some b') {ahead behind : List Ticket}
    (hn : b.queue n = ahead ++ t :: behind) :
    t ∉ b'.queue n ∨ ∃ ahead' behind', b'.queue n = ahead' ++ t :: behind' ∧
      ahead'.Sublist ahead := by
  have hnodup := hq.nodup n
  rw [hn] at hnodup
  obtain ⟨new, h⟩ | h | ⟨c, -, h⟩ := queue_step hm n
  · exact .inr ⟨ahead, behind ++ new, by rw [h, hn, List.append_assoc, List.cons_append],
      List.Sublist.refl _⟩
  · cases ahead with
    | nil =>
      rw [h, hn]
      exact .inl (List.nodup_cons.1 hnodup).1
    | cons u ahead => exact .inr ⟨ahead, behind, by rw [h, hn]; rfl, List.sublist_cons_self _ _⟩
  · by_cases ht : t.call = c
    · refine .inl fun hmem => ?_
      rw [h, List.mem_filter] at hmem
      simp [ht] at hmem
    · refine .inr ⟨ahead.filter fun t => t.call ≠ c, behind.filter fun t => t.call ≠ c, ?_,
        List.filter_sublist⟩
      rw [h, hn, List.filter_append, List.filter_cons_of_pos (by simpa using ht)]

/-! ## The ticket in front -/

/-- A ticket that talks waits for the member that it talks with, and for no other. -/
theorem number_of_talking? (hw : b.Waits t n) {k l d : Nat} (ht : b.talking? t = some (k, l, d)) :
    k = n := by
  obtain ⟨legs, next, leg, hp, hl, rfl, -⟩ := leg_of_talking? ht
  obtain ⟨leg', hl', rfl, -⟩ := (waits_of_phase hp).1 hw
  cases hl.symm.trans hl'
  rfl

/-- A ticket is in front of a queue, and its turn has not come. -/
def IsNext (b : Broker ω) (t : Ticket) (n : Nat) : Prop :=
  (∃ rest, b.queue n = t :: rest) ∧ b.talking? t = none

/-- The ticket in front of a queue leaves it, has its command written, or goes on waiting there. -/
theorem IsNext.step (hq : b.QueuesOk) (hq' : b'.QueuesOk) (hm : b.step m = some b')
    (h : b.IsNext t n) :
    b'.IsNext t n ∨ t ∉ b'.queue n ∨ ∃ l d, b'.talking? t = some (n, l, d) := by
  obtain ⟨⟨rest, hn⟩, -⟩ := h
  have hfirst : b.queue n = [] ++ t :: rest := hn
  obtain hgone | ⟨ahead, behind, hn', hsub⟩ := place_step hq hm hfirst
  · exact .inr (.inl hgone)
  obtain rfl := List.sublist_nil.1 hsub
  rcases ht : b'.talking? t with _ | ⟨k, l, d⟩
  · exact .inl ⟨⟨behind, hn'⟩, ht⟩
  · have hw : b'.Waits t n := (hq'.mem_iff n t).1 (hn' ▸ List.mem_cons_self)
    obtain rfl := number_of_talking? hw ht
    exact .inr (.inr ⟨l, d, rfl⟩)

/-- A call that goes over to a phase in which it does not wait leaves the queues. -/
theorem not_mem_queue {p : Phase ω} (hq : b.QueuesOk) (hp : b.phase? t.call = some p)
    (hw : ¬p.WaitsAt n t.leg) : t ∉ b.queue n :=
  fun h => hw ((waits_of_phase hp).1 ((hq.mem_iff n t).1 h))

/-- A command that is over has left the queue. -/
theorem not_mem_queue_of_ended {legs : List Leg} {next : List Outcome → Program ω} {o : Outcome}
    (hq : b.QueuesOk) (hp : b.phase? t.call =
      some (phaseOf (legs.modify t.leg fun l => { l with state := .ended o }) next)) :
    t ∉ b.queue n := by
  refine not_mem_queue hq hp fun hw => ?_
  obtain ⟨leg, hl, -, ho⟩ := (waitsAt_phaseOf ..).1 hw
  rw [List.getElem?_modify_eq, Option.map_eq_map, Option.map_eq_some_iff] at hl
  obtain ⟨l, -, rfl⟩ := hl
  cases ho

/-- A command that has been written is on its way until it leaves the queue. -/
theorem talking_step (hq' : b'.QueuesOk) (hm : b.step m = some b') {l d : Nat}
    (ht : b.talking? t = some (n, l, d)) :
    b'.talking? t = some (n, l, d) ∨ t ∉ b'.queue n := by
  obtain ⟨legs, next, leg, hp, hl, -, hs⟩ := leg_of_talking? ht
  obtain ⟨q, hq, rfl | ⟨-, refs, ha⟩⟩ := phase_step hm hp
  · exact .inl ((talking?_congr (hq.trans hp.symm)).trans ht)
  cases ha with
  | leaves => exact .inr (not_mem_queue hq' hq id)
  | @goes _ _ _ i leg' state hl' hg =>
    by_cases hi : i = t.leg
    · subst hi
      obtain rfl := Option.some.inj (hl.symm.trans hl')
      rw [hs] at hg
      generalize Deed.event? ⟨b, m⟩ = e at hg
      cases hg with
      | ended _ _ o => exact .inr (not_mem_queue_of_ended hq' hq)
    · -- another command of the call goes on
      refine .inl ?_
      rw [talking?_of_phaseOf hq, List.getElem?_modify_ne _ _ hi, ← talking?_eq hp, ht]

/-- When a member turns to the ticket in front, that leaves the queue, or its command is written. -/
theorem served_step (hq : b.QueuesOk) (hq' : b'.QueuesOk) {rest : List Ticket}
    (hn : b.queue n = t :: rest) (hm : b.step (.serve n) = some b') :
    t ∉ b'.queue n ∨ ∃ l d, b'.talking? t = some (n, l, d) := by
  cases makes_of_step hm with
  | @turns _ t' rest' r turn next hn' hp =>
    obtain ⟨rfl, rfl⟩ := List.cons.inj (hn.symm.trans hn')
    exact .inl (not_mem_queue hq' (phase?_setPhase_self ((phase?_take ..).trans hp)) id)
  | @begins _ t' rest' legs r command next hn' hp hl =>
    obtain ⟨rfl, rfl⟩ := List.cons.inj (hn.symm.trans hn')
    obtain ⟨leg, hl', hr, -⟩ := hq.waitsAt hn hp
    obtain rfl := Option.some.inj (hl.symm.trans hl')
    obtain ⟨state, hg, hp'⟩ := goes_of_beginExchange hn' hp hl
    generalize Deed.event? ⟨b, .serve n⟩ = e at hg
    cases hg with
    | refused s | broken l s => exact .inl (not_mem_queue_of_ended hq' hp')
    | wrote l d =>
      refine .inr ⟨l, d, ?_⟩
      rw [talking?_of_phaseOf hp', List.getElem?_modify_eq, hl, ← hr]
      rfl

/-- A member can turn to the ticket in front, unless its command has been written. -/
theorem isSome_serve (hq : b.QueuesOk) {rest : List Ticket} (hn : b.queue n = t :: rest)
    (ht : b.talking? t = none) : (b.step (.serve n)).isSome := by
  have hn' : (b.member n).queue = t :: rest := hn
  obtain ⟨p, hp, hw⟩ := (hq.mem_iff n t).1 (hn ▸ List.mem_cons_self)
  cases p with
  | entering r turn next => exact Option.isSome_iff_exists.2 ⟨_, (Makes.turns hn' hp).step⟩
  | conversing legs next =>
    obtain ⟨⟨r, command, state⟩, hl, -, ho⟩ := hw
    cases state with
    | queued => exact Option.isSome_iff_exists.2 ⟨_, (Makes.begins hn' hp hl).step⟩
    | talking l d =>
      rw [talking?_eq hp, hl] at ht
      cases ht
    | ended o => cases ho
  | running _ | greeting _ _ _ | finished _ | abandoned => exact hw.elim

/-- At its deadline an exchange can be ended. -/
theorem isSome_expire {l d : Nat} (ht : b.talking? t = some (n, l, d)) (hd : d ≤ b.clock) :
    (b.step (.expire t.call t.leg)).isSome := by
  have hmakes : Makes b (.expire t.call t.leg) _ := .expires ht hd
  exact Option.isSome_iff_exists.2 ⟨_, hmakes.step⟩

/-- A command that has expired leaves the queue. -/
theorem expired_step (ho : b.InOrder) (hm : b.step (.expire t.call t.leg) = some b') {l d : Nat}
    (ht : b.talking? t = some (n, l, d)) : t ∉ b'.queue n := by
  obtain ⟨rest, hn⟩ := ho.front t n l d ht
  cases makes_of_step hm with
  | expires ht' _ =>
    cases ht.symm.trans ht'
    rw [queue_settle, if_pos rfl, hn]
    exact (List.nodup_cons.1 (hn ▸ ho.nodup n)).1

/-! ## Calls and their duties -/

/-- A call whose commands are on their way still waits for one of them. -/
def Pending (b : Broker ω) : Prop :=
  ∀ c legs next, b.phase? c = some (.conversing legs next) → legs.mapM Leg.outcome? = none

theorem mapM_of_phaseOf {legs legs' : List Leg} {next next' : List Outcome → Program ω}
    (h : phaseOf legs next = .conversing legs' next') : legs'.mapM Leg.outcome? = none := by
  unfold phaseOf at h
  split at h <;> cases h
  assumption

theorem Pending.fresh (timeout : Nat) : (fresh timeout : Broker ω).Pending := by
  intro c legs next hp
  cases hp

theorem Pending.step (h : b.Pending) (hm : b.step m = some b') : b'.Pending := by
  intro c legs next hp
  obtain ⟨call, hcall, hph⟩ := exists_call_of_phase hp
  obtain ⟨old, hold⟩ | ⟨-, _, _, _, -, rfl⟩ := call_of_step hm hcall
  · have hold' : b.phase? c = some old.phase := by rw [phase?, hold, Option.map_some]
    obtain ⟨q, hq, rfl | ⟨-, refs, ha⟩⟩ := phase_step hm hold'
    · exact h c legs next (hold'.trans (hq.symm.trans hp))
    · obtain rfl := Option.some.inj (hq.symm.trans hp)
      generalize old.phase = before, he : Phase.conversing legs next = after at ha
      cases ha with
      | converses | goes => exact mapM_of_phaseOf he.symm
      | _ => cases he
  · cases hph

/-- Commands that are not all over have one that is not. -/
theorem exists_unended {legs : List Leg} (h : legs.mapM Leg.outcome? = none) :
    ∃ (i : Nat) (leg : Leg), legs[i]? = some leg ∧ leg.outcome? = none := by
  induction legs with
  | nil => cases h
  | cons leg legs ih =>
    rcases ho : leg.outcome? with _ | o
    · exact ⟨0, leg, rfl, ho⟩
    · have htail : legs.mapM Leg.outcome? = none := by
        rcases hos : legs.mapM Leg.outcome? with _ | os
        · rfl
        · simp [List.mapM_cons, ho, hos] at h
      obtain ⟨i, leg', hl, ho'⟩ := ih htail
      exact ⟨i + 1, leg', hl, ho'⟩

/-- A call that waits for a member or for its commands has a ticket in a queue. -/
theorem exists_ticket (ho : b.InOrder) (hpend : b.Pending) {p : Phase ω} (hp : b.phase? c = some p)
    (hw : (∃ r turn next, p = .entering r turn next) ∨ ∃ legs next, p = .conversing legs next) :
    ∃ n i, p.WaitsAt n i ∧ ⟨c, i⟩ ∈ b.queue n := by
  have hmem : ∀ {n i}, p.WaitsAt n i → ⟨c, i⟩ ∈ b.queue n := fun {n i} h =>
    (ho.mem_iff n ⟨c, i⟩).2 ((waits_of_phase (t := ⟨c, i⟩) hp).2 h)
  obtain ⟨r, turn, next, rfl⟩ | ⟨legs, next, rfl⟩ := hw
  · exact ⟨r.number, 0, ⟨rfl, rfl⟩, hmem ⟨rfl, rfl⟩⟩
  · obtain ⟨i, leg, hl, ho'⟩ := exists_unended (hpend c legs next hp)
    exact ⟨leg.member.number, i, ⟨leg, hl, rfl, ho'⟩, hmem ⟨leg, hl, rfl, ho'⟩⟩

/-- A duty that has to be done for a call: a step of its own, or to serve or to end what is in front
of a queue in which it waits. -/
def Awaits (b : Broker ω) (c : Nat) : Duty → Prop
  | .run k | .giveUp k => k = c
  | .serve n => ∃ i, ⟨c, i⟩ ∈ b.queue n
  | .expire k leg => ∃ n i rest, ⟨c, i⟩ ∈ b.queue n ∧ b.queue n = ⟨k, leg⟩ :: rest

/-- Some time from now there is a duty to be done for a call that goes on. -/
theorem exists_duty (ho : b.InOrder) (hpend : b.Pending) (hc : b.IsActive c) :
    ∃ d time, b.Awaits c d ∧ ({ b with clock := b.clock + time }.step (Duty.move d)).isSome := by
  obtain ⟨p, hp, hover, hgone⟩ := isActive_iff.1 hc
  -- a call that waits has the front of a queue served or ended for it
  have hqueued : ∀ n i, ⟨c, i⟩ ∈ b.queue n → ∃ d time, b.Awaits c d ∧
      ({ b with clock := b.clock + time }.step (Duty.move d)).isSome := by
    intro n i hi
    obtain ⟨t, rest, hn⟩ := List.exists_cons_of_ne_nil (List.ne_nil_of_mem hi)
    rcases ht : b.talking? t with _ | ⟨k, l, d⟩
    · exact ⟨.serve n, 0, ⟨i, hi⟩, isSome_serve ho.toQueuesOk hn ht⟩
    · refine ⟨.expire t.call t.leg, d, ⟨n, i, rest, hi, hn⟩, ?_⟩
      exact isSome_expire (b := { b with clock := b.clock + d }) ht (Nat.le_add_left d b.clock)
  cases p with
  | running p =>
    exact ⟨.run c, 0, rfl, Option.isSome_iff_exists.2 ⟨_, (Makes.runs hp).step⟩⟩
  | greeting l d next =>
    have hmakes : Makes { b with clock := b.clock + d } (.giveUp c) _ :=
      .givesUp hp (Nat.le_add_left d b.clock)
    exact ⟨.giveUp c, d, rfl, Option.isSome_iff_exists.2 ⟨_, hmakes.step⟩⟩
  | entering r turn next =>
    obtain ⟨n, i, -, hi⟩ := exists_ticket ho hpend hp (.inl ⟨r, turn, next, rfl⟩)
    exact hqueued n i hi
  | conversing legs next =>
    obtain ⟨n, i, -, hi⟩ := exists_ticket ho hpend hp (.inr ⟨legs, next, rfl⟩)
    exact hqueued n i hi
  | finished x => exact absurd rfl (hover x)
  | abandoned => exact absurd rfl hgone

/-! ## Queues move on -/

namespace Endless

variable {allowed : Broker ω → Move ω → Prop} {a : Broker ω} {h : Endless allowed a} {i : Nat}

/-- Everything is in order at any time. -/
structure IsOrderly (h : Endless allowed a) : Prop where
  order : ∀ j, (h.state j).InOrder
  pending : ∀ j, (h.state j).Pending

/-- A command that has been written leaves its queue, since its deadline comes. -/
theorem leaves_talking (hf : h.IsFair) (ho : h.IsOrderly) {l d : Nat}
    (ht : (h.state i).talking? t = some (n, l, d)) : ∃ j, i ≤ j ∧ t ∉ (h.state j).queue n := by
  have hstep : ∀ j, (h.state j).talking? t = some (n, l, d) →
      (h.state (j + 1)).talking? t = some (n, l, d) ∨ t ∉ (h.state (j + 1)).queue n := fun j =>
    talking_step (ho.order (j + 1)).toQueuesOk (h.steps j)
  obtain ⟨k, hik, hd⟩ := hf.exists_clock i d
  obtain hk | ⟨j, hij, -, hgone⟩ := lasts_or_comes (P := fun b => b.talking? t = some (n, l, d))
    (Q := fun b => t ∉ b.queue n) (fun j _ => hstep j) ht hik
  · obtain ⟨j, hkj, hgone⟩ := hf.ensures (.expire t.call t.leg)
      (P := fun b => b.talking? t = some (n, l, d) ∧ d ≤ b.clock) (Q := fun b => t ∉ b.queue n)
      (fun j _ hj => (hstep j hj.1).imp_left fun ht => ⟨ht, hj.2.trans (clock_step (h.steps j))⟩)
      (fun j _ hj => isSome_expire hj.1 hj.2)
      (fun j _ hj hm => expired_step (ho.order j) hm hj.1) ⟨hk, hd⟩
    exact ⟨j, hik.trans hkj, hgone⟩
  · exact ⟨j, hij, hgone⟩

/-- The ticket in front of a queue leaves it. -/
theorem leaves_front (hf : h.IsFair) (ho : h.IsOrderly) {rest : List Ticket}
    (hn : (h.state i).queue n = t :: rest) : ∃ j, i ≤ j ∧ t ∉ (h.state j).queue n := by
  rcases ht : (h.state i).talking? t with _ | ⟨k, l, d⟩
  · -- the member turns to it, and then it has left, or its command has been written
    obtain ⟨j, hij, hgone | ⟨l, d, hj⟩⟩ := hf.ensures (.serve n) (P := fun b => b.IsNext t n)
      (Q := fun b => t ∉ b.queue n ∨ ∃ l d, b.talking? t = some (n, l, d))
      (fun j _ => IsNext.step (ho.order j).toQueuesOk (ho.order (j + 1)).toQueuesOk (h.steps j))
      (fun j _ hj => isSome_serve (ho.order j).toQueuesOk hj.1.choose_spec hj.2)
      (fun j _ hj hm => served_step (ho.order j).toQueuesOk (ho.order (j + 1)).toQueuesOk hj.1.choose_spec hm)
      ⟨⟨rest, hn⟩, ht⟩
    · exact ⟨j, hij, hgone⟩
    · obtain ⟨k, hjk, hgone⟩ := leaves_talking hf ho hj
      exact ⟨k, hij.trans hjk, hgone⟩
  · have hw := ((ho.order i).mem_iff n t).1 (hn ▸ List.mem_cons_self)
    obtain rfl := number_of_talking? hw ht
    exact leaves_talking hf ho ht

/-- Whoever is in a queue leaves it. -/
theorem leaves_queue (hf : h.IsFair) (ho : h.IsOrderly)
    (ht : t ∈ (h.state i).queue n) : ∃ j, i ≤ j ∧ t ∉ (h.state j).queue n := by
  obtain ⟨ahead, behind, hn⟩ := List.append_of_mem ht
  clear ht
  -- by induction on how many are ahead: when the first of them has left, there are fewer
  generalize hlen : ahead.length = k
  induction k using Nat.strong_induction_on generalizing i ahead behind with
  | _ k ih =>
  cases ahead with
  | nil => exact leaves_front hf ho hn
  | cons u ahead =>
    obtain ⟨j, hij, hu⟩ := leaves_front hf ho hn
    obtain ⟨ahead', behind', hj, hsub⟩ | ⟨k, hik, -, hgone⟩ := lasts_or_comes
      (P := fun b => ∃ ahead' behind', b.queue n = ahead' ++ t :: behind' ∧
        ahead'.Sublist (u :: ahead))
      (Q := fun b => t ∉ b.queue n)
      (fun j _ ⟨ahead', behind', hj, hsub⟩ =>
        (place_step (ho.order j).toQueuesOk (h.steps j) hj).symm.imp_left
          fun ⟨ahead₂, behind₂, hj₂, hsub₂⟩ => ⟨ahead₂, behind₂, hj₂, hsub₂.trans hsub⟩)
      ⟨u :: ahead, behind, hn, List.Sublist.refl _⟩ hij
    · have hnot : u ∉ ahead' := fun hmem => hu (hj ▸ List.mem_append_left _ hmem)
      have hfewer : ahead'.length < k := by
        rcases List.sublist_cons_iff.1 hsub with hsub | ⟨rest, rfl, -⟩
        · have := hsub.length_le
          simp only [List.length_cons] at hlen
          omega
        · exact absurd List.mem_cons_self hnot
      obtain ⟨k', hjk, hgone⟩ := ih _ hfewer _ _ hj rfl
      exact ⟨k', hij.trans hjk, hgone⟩
    · exact ⟨k, hik, hgone⟩

/-! ## Calls go on -/

/-- A call that goes on makes a move at some time. -/
theorem advances (hf : h.IsFair) (ho : h.IsOrderly) {p : Phase ω}
    (hp : (h.state i).phase? c = some p) (hc : (h.state i).IsActive c) :
    ∃ j q refs, i ≤ j ∧ Advance (h.state j) c (h.move j) p refs q ∧
      (h.state (j + 1)).phase? c = some q := by
  by_contra hno
  -- if it never does, it is in the same phase for ever
  have hidle : ∀ j, i ≤ j → (h.state j).phase? c = some p →
      (h.state j).mover? (h.move j) ≠ some c := by
    intro j hij hj hmover
    obtain ⟨q, refs, hq, ha⟩ := advance_of_mover (h.steps j) hj hmover
    exact hno ⟨j, q, refs, hij, ha, hq⟩
  have hstays : ∀ j, i ≤ j → (h.state j).phase? c = some p := by
    intro j hij
    induction hij with
    | refl => exact hp
    | @step j hij ih =>
      obtain ⟨q, hq, rfl | ⟨hmover, -⟩⟩ := phase_step (h.steps j) ih
      · exact hq
      · exact absurd hmover (hidle j hij ih)
  -- but then it is in no queue, since it would leave that
  have hqueued : (∃ r turn next, p = .entering r turn next) ∨
      (∃ legs next, p = .conversing legs next) → False := by
    intro hwaits
    obtain ⟨n, k, hw, hmem⟩ := exists_ticket (ho.order i) (ho.pending i) hp hwaits
    obtain ⟨j, hij, hgone⟩ := leaves_queue hf ho hmem
    exact hgone (((ho.order j).mem_iff n ⟨c, k⟩).2 ⟨p, hstays j hij, hw⟩)
  obtain ⟨q, hq, hover, hgone⟩ := isActive_iff.1 hc
  obtain rfl := Option.some.inj (hp.symm.trans hq)
  cases p with
  | running p =>
    obtain ⟨j, hij, hj⟩ := hf.attends (.run c) i fun j hij =>
      Option.isSome_iff_exists.2 ⟨_, (Makes.runs (hstays j hij)).step⟩
    exact hidle j hij (hstays j hij) (hj ▸ rfl)
  | greeting l d next =>
    obtain ⟨k, hik, hd⟩ := hf.exists_clock i d
    obtain ⟨j, hkj, hj⟩ := hf.attends (.giveUp c) k fun j hkj => Option.isSome_iff_exists.2
      ⟨_, (Makes.givesUp (hstays j (hik.trans hkj)) (hd.trans (h.clock_le hkj))).step⟩
    exact hidle j (hik.trans hkj) (hstays j (hik.trans hkj)) (hj ▸ rfl)
  | entering r turn next => exact hqueued (.inl ⟨r, turn, next, rfl⟩)
  | conversing legs next => exact hqueued (.inr ⟨legs, next, rfl⟩)
  | finished x => exact hover x rfl
  | abandoned => exact hgone rfl

end Endless

end Broker

/-! ### How much a call has still to do -/

/-- In how many steps a command is over. -/
def LegState.rank : LegState → Nat
  | queued => 2
  | talking _ _ => 1
  | ended _ => 0

/-- In how many steps all the commands of a call are over. -/
def Leg.rank : List Leg → Nat
  | [] => 0
  | l :: legs => l.state.rank + rank legs

/-- In how many steps at most a call has done the next thing in its program. -/
def Phase.rank {ω : Type} : Phase ω → Nat
  | running (.wait (.converse commands) _) => 2 * commands.length + 1
  | running _ => 1
  | conversing legs _ => Leg.rank legs
  | _ => 0

theorem Leg.rank_modify_lt {legs : List Leg} {i : Nat} {leg : Leg} {state : LegState}
    (hl : legs[i]? = some leg) (hlt : state.rank < leg.state.rank) :
    rank (legs.modify i fun l => { l with state }) < rank legs := by
  induction legs generalizing i with
  | nil => cases hl
  | cons l legs ih =>
    cases i with
    | zero =>
      cases hl
      exact Nat.add_lt_add_right hlt _
    | succ i => exact Nat.add_lt_add_left (ih hl) _

theorem Leg.rank_queued (commands : List (Ref × Command)) :
    rank (commands.map fun (r, command) => ⟨r, command, .queued⟩) = 2 * commands.length := by
  induction commands with
  | nil => rfl
  | cons p commands ih =>
    have hcons : rank ((p :: commands).map fun (r, command) => ⟨r, command, .queued⟩) =
        2 + rank (commands.map fun (r, command) => ⟨r, command, .queued⟩) := rfl
    rw [hcons, ih, List.length_cons]
    omega

namespace Broker

variable {ω : Type} {b : Broker ω} {m : Move ω} {c : Nat}

theorem Goes.rank_lt {t : Ticket} {command : Command} {before after : LegState}
    {e : Option Event} (h : Goes t command before e after) : after.rank < before.rank := by
  cases h <;> exact Nat.lt_of_sub_eq_succ rfl

/-- Commands on their way, or all over. -/
theorem progress_phaseOf {legs : List Leg} {next : List Outcome → Program ω} {k : Nat}
    {commands : List (Ref × Command)} (hc : legs.map (fun l => (l.member, l.command)) = commands)
    (hk : Leg.rank legs < k) :
    (phaseOf legs next).left? = some (.wait (.converse commands) next) ∧
        (phaseOf legs next).rank < k ∨
      ∃ e r', (phaseOf legs next).left? = some r' ∧
        (Program.wait (.converse commands) next).Leads [e] r' := by
  rcases hall : legs.mapM Leg.outcome? with _ | outcomes
  · simp only [phaseOf, hall]
    exact .inl ⟨congrArg (fun cs => some (Program.wait (.converse cs) next)) hc, hk⟩
  · simp only [phaseOf, hall]
    exact .inr ⟨.wait (.converse commands) outcomes, _, rfl, .wait (.refl _)⟩

/-- A call that moves on makes a step of its program, or has less to do before that. -/
theorem progress_of_advance {p q : Phase ω} {r : Program ω} {refs : List Ref}
    (ha : Advance b c m p refs q) (hm : m ≠ .abandon c) (hl : p.left? = some r) :
    q.left? = some r ∧ q.rank < p.rank ∨ ∃ e r', q.left? = some r' ∧ r.Leads [e] r' := by
  cases ha with
  | leaves => exact absurd rfl hm
  | finishes | enters | asks =>
    cases hl
    exact .inl ⟨rfl, Nat.one_pos⟩
  | @acts a next =>
    cases hl
    exact .inr ⟨.act a (b.act a).1, _, rfl, .act (.refl _)⟩
  | fails _ | hears _ =>
    cases hl
    exact .inr ⟨.wait (.greet _) _, _, rfl, .wait (.refl _)⟩
  | @turns n r turn next =>
    cases hl
    exact .inr ⟨.wait (.enter r turn) (b.take n turn).1, _, rfl, .wait (.refl _)⟩
  | @converses commands next =>
    cases hl
    refine progress_phaseOf ?_ ?_
    · rw [List.map_map]
      exact List.map_id commands
    · rw [Leg.rank_queued]
      exact Nat.lt_succ_self _
  | goes hleg hg =>
    cases hl
    exact progress_phaseOf (commands_modify ..) (Leg.rank_modify_lt hleg hg.rank_lt)

/-! ### Calls come to their end -/

namespace Endless

variable {allowed : Broker ω → Move ω → Prop} {a : Broker ω} {h : Endless allowed a} {i : Nat}

/-- A call comes to its end unless it is given up. -/
theorem comes_to_end (hf : h.IsFair) (ho : h.IsOrderly) (hkept : ∀ j, h.move j ≠ .abandon c)
    {r : Program ω} (hl : (h.state i).left? c = some r) :
    ∃ j x, i ≤ j ∧ (h.state j).phase? c = some (.finished x) := by
  -- by induction on what is left of the program, and then on what is to be done before its next step
  induction r using Program.induction_on_leads generalizing i with
  | h r ih =>
  obtain ⟨p, hp, hpl⟩ := Option.bind_eq_some_iff.1 hl
  clear hl
  generalize hk : p.rank = k
  induction k using Nat.strong_induction_on generalizing i p with
  | _ k ihk =>
  by_cases hover : ∃ x, p = .finished x
  · obtain ⟨x, rfl⟩ := hover
    exact ⟨i, x, Nat.le_refl i, hp⟩
  have hactive : (h.state i).IsActive c := by
    refine isActive_iff.2 ⟨p, hp, fun x hx => hover ⟨x, hx⟩, ?_⟩
    rintro rfl
    cases hpl
  obtain ⟨j, q, refs, hij, ha, hq⟩ := advances hf ho hp hactive
  rcases progress_of_advance ha (hkept j) hpl with ⟨hql, hlt⟩ | ⟨e, r', hql, hlead⟩
  · obtain ⟨k, x, hjk, hk⟩ := ihk _ (hk ▸ hlt) q hq hql rfl
    exact ⟨k, x, by omega, hk⟩
  · obtain ⟨k, x, hjk, hk⟩ := ih e r' hlead ((left?_of_phase hq).trans hql)
    exact ⟨k, x, by omega, hk⟩

end Endless

/-- In a run from the beginning, calls whose commands are on their way wait for one of them. -/
theorem Run.pending {allowed : Broker ω → Move ω → Prop} {timeout : Nat} {past : List (Deed ω)}
    (hr : Run (fun _ => allowed) (fresh timeout) past b) : b.Pending := by
  induction hr with
  | nil => exact .fresh timeout
  | snoc m _ _ hm ih => exact ih.step hm

end Broker

/-! ## Services come to their end -/

namespace Service

open Broker

variable {asked : Nat → Service} {timeout c : Nat} {past : List (Deed Upshot)} {a : Broker Upshot}

theorem isOrderly (ha : Run (fun _ => Starts asked) (fresh timeout) past a)
    (h : Endless (Starts asked) a) : h.IsOrderly where
  order j := (steady (ha.append (h.run j))).1.order
  pending j := (ha.append (h.run j)).pending

/-- What a call is asked for comes to its end, unless the call is given up. -/
theorem comes_to_end (ha : Run (fun _ => Starts asked) (fresh timeout) past a)
    (hgoes : (a.left? c).isSome) {h : Endless (Starts asked) a} (hf : h.IsFair)
    (hkept : ∀ i, h.move i ≠ .abandon c) : ∃ n y, (h.state n).phase? c = some (.finished y) := by
  obtain ⟨p, hp⟩ := Option.isSome_iff_exists.1 hgoes
  rw [← h.begins] at hp
  obtain ⟨n, y, -, hy⟩ := Endless.comes_to_end hf (isOrderly ha h) hkept hp
  exact ⟨n, y, hy⟩

/-- Every state can be continued with nobody doing anything but the broker. -/
theorem exists_silent (asked : Nat → Service) (a : Broker Upshot) :
    ∃ h : Endless (Starts asked) a, h.IsSilent :=
  Endless.exists_silent a (fun _ d => by cases d <;> trivial) fun _ _ => trivial

/-- From some state on a call yields this. Whatever it has come to after some moves is as told. And it
comes to something: wherever it has been started and not been given up, it does in every fair run
from there in which it is not given up. -/
structure Yields (asked : Nat → Service) (a : Broker Upshot) (c : Nat)
    (told : List (Deed Upshot) → Broker Upshot → Upshot → Prop) : Prop where
  tells : ∀ {under b y}, Run (fun _ => Starts asked) a under b →
    b.phase? c = some (.finished y) → told under b y
  comes : ∀ {under b} {h : Endless (Starts asked) b}, Run (fun _ => Starts asked) a under b →
    (b.left? c).isSome → h.IsFair → (∀ i, h.move i ≠ .abandon c) →
    ∃ n y, (h.state n).phase? c = some (.finished y) ∧ told (under ++ h.past n) (h.state n) y

/-- It is enough to know what a call has come to when it is over, since it will be. -/
theorem yields (ha : Run (fun _ => Starts asked) (fresh timeout) past a)
    {told : List (Deed Upshot) → Broker Upshot → Upshot → Prop}
    (htells : ∀ {under b y}, Run (fun _ => Starts asked) a under b →
      b.phase? c = some (.finished y) → told under b y) : Yields asked a c told where
  tells := htells
  comes hr hgoes hf hkept := by
    obtain ⟨n, y, hy⟩ := comes_to_end (ha.append hr) hgoes hf hkept
    exact ⟨n, y, hy, htells (hr.append (Endless.run _ n)) hy⟩

end Service

end WorkerBroker
