import Mathlib.Data.List.Nodup
import WorkerBroker.Proofs.Standing
/-!
# Queues

A call that waits for its turn on a member has a ticket in the member's queue, and so has each
command of a call that is on its way. Nothing else is in a queue and no ticket is there twice
(`Broker.QueuesOk`). So whoever is in front of a queue is waiting for that very member, and once
the ticket in front has been served nothing is left of it.

The lemmas say that this is kept by each way in which calls come to wait and cease to wait.
-/

namespace WorkerBroker

/-- Whether a call in this phase waits for a member, with its ticket for that leg. -/
def Phase.WaitsAt {ω : Type} (n leg : Nat) : Phase ω → Prop
  | .entering r _ _ => r.number = n ∧ leg = 0
  | .conversing legs _ => ∃ l, legs[leg]? = some l ∧ l.member.number = n ∧ l.outcome? = none
  | _ => False

namespace Leg

/-- The member, the connection and the deadline of a command that has been written. -/
def talk? (l : Leg) : Option (Nat × Nat × Nat) :=
  match l.state with
  | .talking link deadline => some (l.member.number, link, deadline)
  | _ => none

/-- What is over does not talk. -/
theorem talk?_eq_none {l : Leg} (h : l.outcome? ≠ none) : l.talk? = none := by
  obtain ⟨r, command, state⟩ := l
  cases state with
  | ended o => rfl
  | _ => exact absurd rfl h

/-- If the commands have all their outcomes, each is over. -/
theorem outcome?_ne_none {legs : List Leg} {outcomes : List Outcome}
    (h : legs.mapM outcome? = some outcomes) : ∀ l ∈ legs, l.outcome? ≠ none := by
  induction legs generalizing outcomes with
  | nil => simp
  | cons l' legs ih =>
    simp only [List.mapM_cons, Option.bind_eq_bind, Option.bind_eq_some_iff,
      Option.pure_def, Option.some.injEq] at h
    obtain ⟨o, ho, os, hos, -⟩ := h
    intro l hl
    rcases List.mem_cons.1 hl with rfl | hl
    · simp [ho]
    · exact ih hos l hl

end Leg

namespace Broker

variable {ω : Type} {b : Broker ω}

/-- Whether a ticket stands for something that waits for a member. -/
def Waits (b : Broker ω) (t : Ticket) (n : Nat) : Prop :=
  ∃ p, b.phase? t.call = some p ∧ p.WaitsAt n t.leg

/-- The queues hold the tickets of what waits, each once, and nothing else. -/
structure QueuesOk (b : Broker ω) : Prop where
  nodup : ∀ n, (b.queue n).Nodup
  mem_iff : ∀ n t, t ∈ b.queue n ↔ b.Waits t n

/-! ## What waits after a change of phase -/

theorem waits_of_phase {t : Ticket} {n : Nat} {p : Phase ω} (h : b.phase? t.call = some p) :
    b.Waits t n ↔ p.WaitsAt n t.leg := by
  constructor
  · rintro ⟨q, hq, hw⟩
    rw [h] at hq
    obtain rfl := Option.some.inj hq
    exact hw
  · exact fun hw => ⟨p, h, hw⟩

theorem waits_congr {b' : Broker ω} {t : Ticket} {n : Nat}
    (h : b'.phase? t.call = b.phase? t.call) : b'.Waits t n ↔ b.Waits t n := by
  simp only [Waits, h]

/-- A call that is done with its commands waits no more than one that is about to be. -/
theorem waitsAt_phaseOf (legs : List Leg) (next : List Outcome → Program ω) (n i : Nat) :
    (phaseOf legs next).WaitsAt n i ↔ (Phase.conversing legs next).WaitsAt n i := by
  unfold phaseOf
  split
  · rename_i outcomes h
    refine ⟨False.elim, ?_⟩
    rintro ⟨l, hl, -, hn⟩
    exact Leg.outcome?_ne_none h l (List.mem_of_getElem? hl) hn
  · rfl

/-! ## What keeps the queues in order -/

namespace QueuesOk

theorem congr {b' : Broker ω} (h : b.QueuesOk) (hq : ∀ n, b'.queue n = b.queue n)
    (hw : ∀ n t, b'.Waits t n ↔ b.Waits t n) : b'.QueuesOk where
  nodup n := by
    rw [hq]
    exact h.nodup n
  mem_iff n t := by
    rw [hq, hw]
    exact h.mem_iff n t

/-- Whoever is in front of a queue waits for that member. -/
theorem waitsAt {n : Nat} {t : Ticket} {rest : List Ticket} {p : Phase ω} (h : b.QueuesOk)
    (hn : b.queue n = t :: rest) (hp : b.phase? t.call = some p) : p.WaitsAt n t.leg :=
  (waits_of_phase hp).1 ((h.mem_iff n t).1 (hn ▸ List.mem_cons_self))

/-- A call that did not wait goes on without waiting. -/
theorem setPhase {c : Nat} {p q : Phase ω} (h : b.QueuesOk) (hp : b.phase? c = some p)
    (hpw : ∀ n i, p.WaitsAt n i ↔ q.WaitsAt n i) : (b.setPhase c q).QueuesOk := by
  refine h.congr (fun _ => rfl) fun n t => ?_
  by_cases ht : t.call = c
  · subst ht
    rw [waits_of_phase (phase?_setPhase_self hp), waits_of_phase hp, hpw]
  · exact waits_congr (phase?_setPhase_ne b q ht)

/-- A call that did not wait takes a place in a queue. -/
theorem enter {c : Nat} {p : Phase ω} {r : Ref} {turn : Turn} {next : turn.Answer → Program ω}
    (h : b.QueuesOk) (hp : b.phase? c = some p) (hpw : ∀ n i, ¬p.WaitsAt n i)
    (hr : r.number < b.members.length) :
    ((b.queueUp r.number ⟨c, 0⟩).setPhase c (.entering r turn next)).QueuesOk := by
  have hnew : ∀ n i, ⟨c, i⟩ ∉ b.queue n := fun n i hm =>
    hpw n i ((waits_of_phase hp).1 ((h.mem_iff n _).1 hm))
  constructor
  · intro n
    rw [queue_setPhase, queue_queueUp]
    split
    · refine List.nodup_append.2 ⟨h.nodup _, List.nodup_singleton _, ?_⟩
      rintro t ht u hu rfl
      obtain rfl := List.mem_singleton.1 hu
      exact hnew _ _ ht
    · exact h.nodup n
  · intro n t
    rw [queue_setPhase, queue_queueUp]
    by_cases ht : t.call = c
    · subst ht
      rw [waits_of_phase (phase?_setPhase_self (by exact hp))]
      simp only [Phase.WaitsAt, hr, and_true]
      by_cases hn : n = r.number
      · subst hn
        simp only [if_true, List.mem_append, hnew, false_or, List.mem_singleton, true_and]
        exact ⟨fun e => congrArg Ticket.leg e, fun e => by cases t; cases e; rfl⟩
      · simp only [hn, if_false, Ne.symm hn, false_and, iff_false]
        exact hnew n t.leg
    · rw [waits_congr (phase?_setPhase_ne _ _ ht)]
      change _ ↔ b.Waits t n
      rw [← h.mem_iff]
      split
      · rename_i hn
        rw [hn.1, List.mem_append, List.mem_singleton]
        exact ⟨fun hm => hm.resolve_right fun e => ht (congrArg Ticket.call e), .inl⟩
      · rfl

/-- The ticket in front of a queue is served, and what it stood for does not wait any more. -/
theorem pop {b' : Broker ω} {n : Nat} {t : Ticket} {rest : List Ticket} (h : b.QueuesOk)
    (hn : b.queue n = t :: rest) (hq : ∀ k, b'.queue k = if k = n then rest else b.queue k)
    (hw : ∀ k u, b'.Waits u k ↔ b.Waits u k ∧ u ≠ t) : b'.QueuesOk := by
  have hnd : t ∉ rest ∧ rest.Nodup := List.nodup_cons.1 (hn ▸ h.nodup n)
  have hwt : b.Waits t n := (h.mem_iff n t).1 (hn ▸ List.mem_cons_self)
  constructor
  · intro k
    rw [hq]
    split
    · exact hnd.2
    · exact h.nodup k
  · intro k u
    rw [hq, hw, ← h.mem_iff]
    by_cases hk : k = n
    · subst hk
      rw [if_pos rfl, hn, List.mem_cons]
      constructor
      · exact fun hu => ⟨.inr hu, fun e => hnd.1 (e ▸ hu)⟩
      · exact fun hu => hu.1.resolve_left hu.2
    · rw [if_neg hk]
      refine ⟨fun hu => ⟨hu, ?_⟩, And.left⟩
      rintro rfl
      -- a ticket stands in one queue only, since it waits for one member only
      obtain ⟨p, hp, hpw⟩ := (h.mem_iff k u).1 hu
      have hpn := (waits_of_phase hp).1 hwt
      cases p with
      | entering r turn next => exact hk (hpw.1.symm.trans hpn.1)
      | conversing legs next =>
        obtain ⟨l, hl, hlk, -⟩ := hpw
        obtain ⟨l', hl', hln, -⟩ := hpn
        rw [hl] at hl'
        obtain rfl := Option.some.inj hl'
        exact hk (hlk.symm.trans hln)
      | running _ => exact hpw
      | greeting _ _ _ => exact hpw
      | finished _ => exact hpw
      | abandoned => exact hpw

end QueuesOk

/-- Each of the commands takes a place in the queue of its member. -/
theorem queueLegs_spec (c : Nat) (commands : List (Ref × Command)) (i : Nat) (b : Broker ω)
    (hr : ∀ p ∈ commands, p.1.number < b.members.length)
    (hnd : ∀ n, (b.queue n).Nodup) (hnew : ∀ n j, i ≤ j → ⟨c, j⟩ ∉ b.queue n) :
    (∀ n, ((b.queueLegs c i commands).queue n).Nodup) ∧
      ∀ n t, t ∈ (b.queueLegs c i commands).queue n ↔ t ∈ b.queue n ∨
        t.call = c ∧ i ≤ t.leg ∧ ∃ p, commands[t.leg - i]? = some p ∧ p.1.number = n := by
  induction commands generalizing i b with
  | nil => exact ⟨hnd, fun n t => by simp [queueLegs]⟩
  | cons p ps ih =>
    have hp : p.1.number < b.members.length := hr p List.mem_cons_self
    have hq : ∀ n, (b.queueUp p.1.number ⟨c, i⟩).queue n =
        if n = p.1.number then b.queue n ++ [⟨c, i⟩] else b.queue n := by
      intro n
      rw [queue_queueUp]
      by_cases hn : n = p.1.number
      · subst hn
        simp [hp]
      · simp [hn]
    have hih := ih (i + 1) (b.queueUp p.1.number ⟨c, i⟩)
      (fun q hm => by simpa [queueUp, changeMember] using hr q (List.mem_cons_of_mem _ hm)) ?_ ?_
    · refine ⟨hih.1, fun n t => (hih.2 n t).trans ?_⟩
      rw [hq]
      -- the ticket is the new one, or an old one, or one of those that follow
      by_cases hti : t = ⟨c, i⟩
      · subst hti
        by_cases hn : n = p.1.number
        · simp [hn]
        · simp [hn, Ne.symm hn, show ¬i + 1 ≤ i by omega]
      · have hold : (t ∈ if n = p.1.number then b.queue n ++ [⟨c, i⟩] else b.queue n) ↔
            t ∈ b.queue n := by
          split
          · simp [hti]
          · rfl
        rw [hold]
        refine or_congr Iff.rfl (and_congr_right fun hc => ?_)
        constructor
        · rintro ⟨hle, q, hq, hn⟩
          refine ⟨by omega, q, ?_, hn⟩
          rw [show t.leg - i = t.leg - (i + 1) + 1 by omega]
          simpa using hq
        · rintro ⟨hle, q, hq, hn⟩
          have hne : t.leg ≠ i := fun e => hti (by cases t; cases hc; cases e; rfl)
          refine ⟨by omega, q, ?_, hn⟩
          rw [show t.leg - i = t.leg - (i + 1) + 1 by omega] at hq
          simpa using hq
    · intro n
      rw [hq]
      split
      · refine List.nodup_append.2 ⟨hnd _, List.nodup_singleton _, ?_⟩
        rintro t ht u hu rfl
        obtain rfl := List.mem_singleton.1 hu
        exact hnew n i (Nat.le_refl i) ht
      · exact hnd n
    · intro n j hj
      rw [hq]
      have hold := hnew n j (by omega)
      split
      · simp only [List.mem_append, hold, List.mem_singleton, Ticket.mk.injEq, true_and, false_or]
        omega
      · exact hold

theorem queueLegs_append (c i : Nat) (commands : List (Ref × Command)) (b : Broker ω) (n : Nat) :
    ∃ new, (b.queueLegs c i commands).queue n = b.queue n ++ new := by
  induction commands generalizing i b with
  | nil => exact ⟨[], (List.append_nil _).symm⟩
  | cons p ps ih =>
    obtain ⟨new, h⟩ := ih (i + 1) (b.queueUp p.1.number ⟨c, i⟩)
    simp only [queueLegs, h, queue_queueUp]
    split
    · rename_i hn
      exact ⟨⟨c, i⟩ :: new, by rw [hn.1, List.append_assoc]; rfl⟩
    · exact ⟨new, rfl⟩

theorem phase?_queueLegs (c i k : Nat) (commands : List (Ref × Command)) (b : Broker ω) :
    (b.queueLegs c i commands).phase? k = b.phase? k := by
  induction commands generalizing i b with
  | nil => rfl
  | cons p ps ih => exact ih _ _

theorem calls_queueLegs (c i : Nat) (commands : List (Ref × Command)) (b : Broker ω) :
    (b.queueLegs c i commands).calls = b.calls := by
  induction commands generalizing i b with
  | nil => rfl
  | cons p ps ih => exact ih _ _

theorem standing_queueLegs (c i : Nat) (commands : List (Ref × Command)) (b : Broker ω) :
    (b.queueLegs c i commands).standing = b.standing := by
  induction commands generalizing i b with
  | nil => rfl
  | cons p ps ih => exact (ih _ _).trans (b.standing_queueUp _ _)

namespace QueuesOk

/-- A call that did not wait sends its commands on their way. -/
theorem converse {c : Nat} {p : Phase ω} {commands : List (Ref × Command)}
    {next : List Outcome → Program ω} (h : b.QueuesOk) (hp : b.phase? c = some p)
    (hpw : ∀ n i, ¬p.WaitsAt n i) (hr : ∀ q ∈ commands, q.1.number < b.members.length) :
    ((b.queueLegs c 0 commands).setPhase c
      (phaseOf (commands.map fun (r, command) => ⟨r, command, .queued⟩) next)).QueuesOk := by
  have hnew : ∀ n i, ⟨c, i⟩ ∉ b.queue n := fun n i hm =>
    hpw n i ((waits_of_phase hp).1 ((h.mem_iff n _).1 hm))
  obtain ⟨hnd, hmem⟩ := queueLegs_spec c commands 0 b hr h.nodup fun n j _ => hnew n j
  refine ⟨hnd, fun n t => (hmem n t).trans ?_⟩
  by_cases ht : t.call = c
  · subst ht
    rw [waits_of_phase (phase?_setPhase_self (by rw [phase?_queueLegs, hp])), waitsAt_phaseOf]
    simp only [hnew n t.leg, false_or, Nat.zero_le, Nat.sub_zero, true_and, Phase.WaitsAt]
    constructor
    · rintro ⟨q, hq, hn⟩
      exact ⟨⟨q.1, q.2, .queued⟩, by simp [hq], hn, rfl⟩
    · rintro ⟨l, hl, hn, -⟩
      rw [List.getElem?_map, Option.map_eq_some_iff] at hl
      obtain ⟨q, hq, rfl⟩ := hl
      exact ⟨q, hq, hn⟩
  · rw [waits_congr (phase?_setPhase_ne _ _ ht), waits_congr (phase?_queueLegs ..), ← h.mem_iff]
    simp [ht]

end QueuesOk

end Broker

end WorkerBroker
