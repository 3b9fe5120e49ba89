import Mathlib.Data.Nat.Pairing
import WorkerBroker.Proofs.Progress
/-!
# Endless runs

A run may stop anywhere, so it says nothing of what is bound to happen. An endless run
(`Broker.Endless`) goes on for ever, and it is fair (`Endless.IsFair`) if time passes beyond every
bound and the broker neglects none of its duties: what it can do of itself from some time on, it
does. Its duties are the steps of calls, the turns that members give, and to give up what is overdue.
What workers do is no duty, and neither is that an answer is read which has arrived, so whatever is
bound to happen in a fair run happens with workers that never answer.

With `IsFair.ensures` it is enough to look at one duty at a time. Every run can be continued by a fair
one in which nobody but the broker does anything (`Endless.exists_silent`), so there is nothing that
rules fair runs out.
-/

namespace WorkerBroker

/-- What the broker has to do of itself. -/
inductive Duty where
  /-- a call does its next act or begins to wait -/
  | run (call : Nat)
  /-- a member turns to the ticket in front of its queue -/
  | serve (member : Nat)
  /-- a command that has waited until its deadline is over -/
  | expire (call leg : Nat)
  /-- a fresh connection that has not said who it is until its deadline is given up -/
  | giveUp (call : Nat)

namespace Duty

/-- The move in which a duty is done. -/
def move {ω : Type} : Duty → Move ω
  | run c => .run c
  | serve n => .serve n
  | expire c leg => .expire c leg
  | giveUp c => .giveUp c

/-- The duty of a number. -/
def ofNumber (k : Nat) : Duty :=
  match k.unpair with
  | (0, c) => run c
  | (1, n) => serve n
  | (2, i) => expire i.unpair.1 i.unpair.2
  | (_, c) => giveUp c

/-- Every duty has a number. -/
theorem exists_number (d : Duty) : ∃ k, ofNumber k = d := by
  cases d with
  | run c => exact ⟨Nat.pair 0 c, by simp [ofNumber]⟩
  | serve n => exact ⟨Nat.pair 1 n, by simp [ofNumber]⟩
  | expire c leg => exact ⟨Nat.pair 2 (Nat.pair c leg), by simp [ofNumber]⟩
  | giveUp c => exact ⟨Nat.pair 3 c, by simp [ofNumber]⟩

/-- No reply is read in a duty. -/
theorem event?_ne {ω : Type} (d : Duty) (b : Broker ω) (t : Ticket) (l : Nat) (raw : Bytes) :
    Deed.event? ⟨b, d.move⟩ ≠ some (.ended t l (.ok raw)) := by
  have hwriting : ∀ {u : Ticket} {k : Nat} {line : String},
      some (b.writing u k line) ≠ some (.ended t l (.ok raw)) := by
    intro u k line
    rw [Broker.writing]
    split <;> simp
  cases d with
  | run c =>
    simp only [move, Deed.event?]
    split
    · exact hwriting
    · simp
  | serve n =>
    simp only [move, Deed.event?]
    split
    · rw [Broker.serving]
      split
      · split
        · exact hwriting
        · simp
      · simp
    · simp
  | expire c leg =>
    simp only [move, Deed.event?]
    rcases b.talking? ⟨c, leg⟩ with _ | x <;> simp
  | giveUp c =>
    simp only [move, Deed.event?]
    split <;> simp

end Duty

namespace Broker

variable {ω : Type}

/-! ## Time -/

section

variable {b b' : Broker ω} {m : Move ω}

theorem clock_disconnect (b : Broker ω) (n : Nat) : (b.disconnect n).clock = b.clock := by
  unfold disconnect
  split <;> rfl

theorem clock_act (b : Broker ω) (a : Act) : (b.act a).2.clock = b.clock := by
  cases a with
  | strike r =>
    simp only [act]
    split <;> rfl
  | dismiss kind id =>
    simp only [act]
    split
    · split <;> rfl
    · rfl
  | _ => rfl

theorem clock_take (b : Broker ω) (n : Nat) (turn : Turn) : (b.take n turn).2.clock = b.clock := by
  cases turn with
  | offer generation link =>
    simp only [take]
    split
    · rfl
    · split
      · rfl
      · exact b.clock_disconnect n
  | shut => exact b.clock_disconnect n
  | retire =>
    simp only [take]
    split <;> rfl
  | look => rfl

theorem clock_queueLegs (c i : Nat) (commands : List (Ref × Command)) (b : Broker ω) :
    (b.queueLegs c i commands).clock = b.clock := by
  induction commands generalizing i b with
  | nil => rfl
  | cons p ps ih => exact ih _ _

theorem clock_setLeg (t : Ticket) (state : LegState) (b : Broker ω) :
    (b.setLeg t state).clock = b.clock := by
  unfold setLeg
  split <;> rfl

theorem clock_conclude (n : Nat) (t : Ticket) (o : Outcome) (b : Broker ω) :
    (b.conclude n t o).clock = b.clock :=
  clock_setLeg t _ _

theorem clock_settle (n : Nat) (t : Ticket) (o : Outcome) (b : Broker ω) :
    (b.settle n t o).clock = b.clock := by
  cases o with
  | ok raw => exact clock_conclude n t _ b
  | error s => exact (clock_conclude n t _ _).trans (b.clock_disconnect n)

theorem clock_beginExchange (n : Nat) (t : Ticket) (command : Command) (b : Broker ω) :
    (b.beginExchange n t command).clock = b.clock := by
  unfold beginExchange
  split
  · exact clock_conclude n t _ b
  · split
    · exact clock_conclude n t _ b
    · split
      · exact clock_setLeg t _ _
      · exact clock_settle n t _ b

theorem clock_stepProgram (c : Nat) (p : Program ω) (b : Broker ω) :
    (b.stepProgram c p).clock = b.clock := by
  cases p with
  | done x => rfl
  | act a next => exact b.clock_act a
  | wait w next =>
    cases w with
    | enter r turn => rfl
    | converse commands => exact clock_queueLegs c 0 commands b
    | greet link =>
      simp only [stepProgram, beginWait]
      split <;> rfl

/-- Time does not go back. -/
theorem clock_step (hm : b.step m = some b') : b.clock ≤ b'.clock := by
  cases makes_of_step hm with
  | passes time => exact Nat.le_add_right _ _
  | runs _ => exact Nat.le_of_eq (clock_stepProgram ..).symm
  | turns _ _ => exact Nat.le_of_eq (clock_take ..).symm
  | begins _ _ _ => exact Nat.le_of_eq (clock_beginExchange ..).symm
  | @receives _ _ _ l _ _ rest _ _ =>
    exact Nat.le_of_eq (clock_settle _ _ _ (b.changeLink l fun _ => rest)).symm
  | expires _ _ => exact Nat.le_of_eq (clock_settle ..).symm
  | supersedes _ _ _ => exact Nat.le_of_eq (clock_conclude ..).symm
  | releases _ _ => exact Nat.le_of_eq (clock_disconnect ..).symm
  | starts _ _ _ | hears _ _ | givesUp _ _ | abandons _ _ _ | accepts | signals _ _ =>
    exact Nat.le_refl _

end

/-- A duty that can be done is the duty of a call that goes on. -/
theorem mover?_of_duty {b b' : Broker ω} {d : Duty} (hm : b.step d.move = some b') :
    ∃ k, b.mover? d.move = some k ∧ b.IsActive k := by
  cases d with
  | run c =>
    cases makes_of_step hm with
    | runs hp => exact ⟨c, rfl, isActive_of_phase hp fun _ _ => rfl⟩
  | serve n =>
    cases makes_of_step hm with
    | turns hn hp => exact ⟨_, mover?_serve hn, isActive_of_phase hp fun _ _ => rfl⟩
    | begins hn hp _ => exact ⟨_, mover?_serve hn, isActive_of_phase hp fun _ _ => rfl⟩
  | expire c leg =>
    cases makes_of_step hm with
    | expires ht _ =>
      obtain ⟨legs, next, l, hp, -⟩ := leg_of_talking? ht
      exact ⟨c, rfl, isActive_of_phase hp fun _ _ => rfl⟩
  | giveUp c =>
    cases makes_of_step hm with
    | givesUp hp _ => exact ⟨c, rfl, isActive_of_phase hp fun _ _ => rfl⟩

/-! ## Runs that go on for ever -/

/-- A run that goes on for ever: its states, and the move that is made in each. -/
structure Endless (allowed : Broker ω → Move ω → Prop) (a : Broker ω) where
  state : Nat → Broker ω
  move : Nat → Move ω
  begins : state 0 = a
  allows : ∀ i, allowed (state i) (move i)
  steps : ∀ i, (state i).step (move i) = some (state (i + 1))

namespace Endless

variable {allowed : Broker ω → Move ω → Prop} {a : Broker ω}

/-- What has happened before some time. -/
def past (h : Endless allowed a) (i : Nat) : List (Deed ω) :=
  (List.range i).map fun j => ⟨h.state j, h.move j⟩

theorem past_succ (h : Endless allowed a) (i : Nat) :
    h.past (i + 1) = h.past i ++ [⟨h.state i, h.move i⟩] := by
  simp [past, List.range_succ]

/-- Up to any time it is a run. -/
theorem run (h : Endless allowed a) (i : Nat) :
    Run (fun _ => allowed) a (h.past i) (h.state i) := by
  induction i with
  | zero =>
    rw [h.begins]
    exact .nil
  | succ i ih =>
    rw [past_succ]
    exact .snoc _ ih (h.allows i) (h.steps i)

theorem clock_le (h : Endless allowed a) {i j : Nat} (hij : i ≤ j) :
    (h.state i).clock ≤ (h.state j).clock := by
  induction hij with
  | refl => exact Nat.le_refl _
  | step _ ih => exact Nat.le_trans ih (clock_step (h.steps _))

/-- Time passes beyond every bound, and the broker does what it could do from some time on. -/
structure IsFair (h : Endless allowed a) : Prop where
  passes : ∀ time, ∃ i, time ≤ (h.state i).clock
  attends : ∀ (d : Duty) i, (∀ j, i ≤ j → ((h.state j).step d.move).isSome) →
    ∃ j, i ≤ j ∧ h.move j = d.move

/-! ## What is bound to happen -/

section

variable {h : Endless allowed a} {P Q : Broker ω → Prop} {i : Nat}

/-- What lasts until something comes about either lasts for ever or ends with that. -/
theorem lasts_or_comes (hstep : ∀ j, i ≤ j → P (h.state j) →
      P (h.state (j + 1)) ∨ Q (h.state (j + 1)))
    (hi : P (h.state i)) {j : Nat} (hij : i ≤ j) :
    P (h.state j) ∨ ∃ k, i ≤ k ∧ k ≤ j ∧ Q (h.state k) := by
  induction hij with
  | refl => exact .inl hi
  | @step j hij ih =>
    obtain hp | ⟨k, hik, hkj, hq⟩ := ih
    · exact (hstep j hij hp).imp id fun hq => ⟨j + 1, Nat.le_succ_of_le hij, Nat.le_refl _, hq⟩
    · exact .inr ⟨k, hik, Nat.le_succ_of_le hkj, hq⟩

/-- What lasts until something comes about, while there is a duty that brings it about, ends with
that. -/
theorem IsFair.ensures (hf : h.IsFair) (d : Duty)
    (hstep : ∀ j, i ≤ j → P (h.state j) → P (h.state (j + 1)) ∨ Q (h.state (j + 1)))
    (hmay : ∀ j, i ≤ j → P (h.state j) → ((h.state j).step d.move).isSome)
    (hdone : ∀ j, i ≤ j → P (h.state j) → (h.state j).step d.move = some (h.state (j + 1)) →
      Q (h.state (j + 1)))
    (hi : P (h.state i)) : ∃ j, i ≤ j ∧ Q (h.state j) := by
  by_contra hno
  have hlasts : ∀ j, i ≤ j → P (h.state j) := fun j hij =>
    (lasts_or_comes hstep hi hij).resolve_right fun ⟨k, hik, _, hq⟩ => hno ⟨k, hik, hq⟩
  obtain ⟨j, hij, hj⟩ := hf.attends d i fun j hij => hmay j hij (hlasts j hij)
  exact hno ⟨j + 1, by omega, hdone j hij (hlasts j hij) (hj ▸ h.steps j)⟩

/-- Every time comes. -/
theorem IsFair.exists_clock (hf : h.IsFair) (i time : Nat) :
    ∃ j, i ≤ j ∧ time ≤ (h.state j).clock := by
  obtain ⟨k, hk⟩ := hf.passes time
  exact ⟨max i k, Nat.le_max_left i k, Nat.le_trans hk (h.clock_le (Nat.le_max_right i k))⟩

end

/-! ## There are fair runs -/

/-- The duty whose turn it is at a time. Each has its turn again and again, and in between it is the
turn of none. -/
def duty? (i : Nat) : Option Duty :=
  if i % 2 = 1 then some (.ofNumber (i / 2).unpair.1) else none

/-- The broker does the duty whose turn it is, if it can be done, and else the time passes. -/
def proceed (i : Nat) (b : Broker ω) : Move ω × Broker ω :=
  ((duty? i).bind fun d => (b.step d.move).map fun b' => (d.move, b')).getD
    (.pass 1, { b with clock := b.clock + 1 })

/-- The states that this leads to. -/
def proceeding (a : Broker ω) : Nat → Broker ω
  | 0 => a
  | i + 1 => (proceed i (proceeding a i)).2

theorem proceed_cases (i : Nat) (b : Broker ω) :
    (∃ d b', b.step (Duty.move d) = some b' ∧ proceed i b = (d.move, b')) ∨
      proceed i b = (.pass 1, { b with clock := b.clock + 1 }) := by
  unfold proceed
  rcases h : (duty? i).bind fun d => (b.step d.move).map fun b' => (d.move, b') with _ | x
  · exact .inr rfl
  · obtain ⟨d, -, hd⟩ := Option.bind_eq_some_iff.1 h
    obtain ⟨b', hb', rfl⟩ := Option.map_eq_some_iff.1 hd
    exact .inl ⟨d, b', hb', rfl⟩

theorem step_proceed (i : Nat) (b : Broker ω) :
    b.step (proceed i b).1 = some (proceed i b).2 := by
  obtain ⟨d, b', hb', h⟩ | h := proceed_cases i b
  · rw [h]
    exact hb'
  · rw [h]
    rfl

theorem proceed_even (i : Nat) (b : Broker ω) :
    proceed (2 * i) b = (.pass 1, { b with clock := b.clock + 1 }) := by
  have hnone : duty? (2 * i) = none := if_neg (by omega)
  rw [proceed, hnone]
  rfl

theorem proceed_odd {k i : Nat} {b : Broker ω} (h : (b.step (Duty.ofNumber k).move).isSome) :
    (proceed (2 * Nat.pair k i + 1) b).1 = (Duty.ofNumber k).move := by
  obtain ⟨b', hb'⟩ := Option.isSome_iff_exists.1 h
  have hduty : duty? (2 * Nat.pair k i + 1) = some (.ofNumber k) := by
    have hhalf : (2 * Nat.pair k i + 1) / 2 = Nat.pair k i := by omega
    rw [duty?, if_pos (by omega), hhalf, Nat.unpair_pair]
  rw [proceed, hduty, Option.bind_some, hb']
  rfl

/-- A fair run in which nobody does anything but the broker. -/
structure IsSilent (h : Endless allowed a) : Prop extends h.IsFair where
  moves : ∀ i, (∃ d : Duty, h.move i = d.move) ∨ ∃ time, h.move i = .pass time

/-- There is one from every state. -/
theorem exists_silent (a : Broker ω) (hduty : ∀ b (d : Duty), allowed b d.move)
    (hpass : ∀ b time, allowed b (.pass time)) : ∃ h : Endless allowed a, h.IsSilent := by
  have hmove : ∀ i (b : Broker ω), (∃ d : Duty, (proceed i b).1 = d.move) ∨
      ∃ time, (proceed i b).1 = .pass time := by
    intro i b
    obtain ⟨d, b', -, h⟩ | h := proceed_cases i b
    · exact .inl ⟨d, congrArg Prod.fst h⟩
    · exact .inr ⟨1, congrArg Prod.fst h⟩
  let h : Endless allowed a :=
    { state := proceeding a
      move := fun i => (proceed i (proceeding a i)).1
      begins := rfl
      allows := fun i => by
        obtain ⟨d, hd⟩ | ⟨time, htime⟩ := hmove i (proceeding a i)
        · rw [hd]
          exact hduty _ d
        · rw [htime]
          exact hpass _ time
      steps := fun i => step_proceed i _ }
  refine ⟨h, ⟨fun time => ⟨2 * time, ?_⟩, fun d i hmay => ?_⟩, fun i => hmove i _⟩
  · induction time with
    | zero => exact Nat.zero_le _
    | succ time ih =>
      have hnext : (h.state (2 * time + 1)).clock = (h.state (2 * time)).clock + 1 := by
        change (proceed (2 * time) (proceeding a (2 * time))).2.clock = _
        rw [proceed_even]
      have hlater := h.clock_le (i := 2 * time + 1) (j := 2 * (time + 1)) (by omega)
      omega
  · obtain ⟨k, rfl⟩ := d.exists_number
    have hlater : i ≤ 2 * Nat.pair k i + 1 := by
      have := Nat.right_le_pair k i
      omega
    exact ⟨_, hlater, proceed_odd (hmay _ hlater)⟩

namespace IsSilent

variable {h : Endless allowed a} {c : Nat}

/-- Nobody is given up in it. -/
theorem kept (hs : h.IsSilent) (c i : Nat) : h.move i ≠ .abandon c := by
  obtain ⟨d, hd⟩ | ⟨time, hd⟩ := hs.moves i
  · rw [hd]
    cases d <;> nofun
  · rw [hd]
    nofun

/-- No reply is read in it. -/
theorem not_mem_log (hs : h.IsSilent) (n : Nat) (t : Ticket) (l : Nat) (raw : Bytes) :
    .ended t l (.ok raw) ∉ log (h.past n) := by
  intro hlogged
  obtain ⟨f, hf, hevent⟩ := List.mem_filterMap.1 hlogged
  obtain ⟨i, -, rfl⟩ := List.mem_map.1 hf
  obtain ⟨d, hd⟩ | ⟨time, hd⟩ := hs.moves i
  · rw [hd] at hevent
    exact d.event?_ne _ t l raw hevent
  · rw [hd] at hevent
    cases hevent

/-- If only one call goes on, nobody else makes a move. -/
theorem alone (hs : h.IsSilent) (hc : ∀ k, a.IsActive k → k = c) (i : Nat) :
    (∀ k, (h.state i).IsActive k → k = c) ∧
      ((h.state i).mover? (h.move i) = some c ∨ ∃ time, h.move i = .pass time) := by
  have hmoves : ∀ i, (∀ k, (h.state i).IsActive k → k = c) →
      (h.state i).mover? (h.move i) = some c ∨ ∃ time, h.move i = .pass time := by
    intro i hi
    refine (hs.moves i).imp_left fun ⟨d, hd⟩ => ?_
    have hstep := h.steps i
    rw [hd] at hstep ⊢
    obtain ⟨k, hk, hactive⟩ := mover?_of_duty hstep
    rw [hk, hi k hactive]
  suffices h : ∀ k, (h.state i).IsActive k → k = c from ⟨h, hmoves i h⟩
  induction i with
  | zero =>
    rw [h.begins]
    exact hc
  | succ i ih =>
    intro k hk
    by_contra hne
    have hother : (h.state i).mover? (h.move i) ≠ some k := by
      obtain hmover | ⟨time, hmover⟩ := hmoves i ih
      · rw [hmover]
        exact fun e => hne (Option.some.inj e).symm
      · rw [hmover]
        nofun
    obtain ⟨p, hp, hactive⟩ := isActive_iff.1 hk
    rw [phase?_step (h.steps i) hother] at hp
    exact hne (ih k (isActive_iff.2 ⟨p, hp, hactive⟩))

end IsSilent

end Endless

end Broker

end WorkerBroker
