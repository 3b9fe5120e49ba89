import WorkerBroker.Proofs.Log
import WorkerBroker.Proofs.Sound
/-!
# Generations

The generation of a member says how often a connection was announced to it, and never goes back. A
connection is installed with the generation of its member, so none is ahead of its member
(`Standing.Dated`). A connection whose generation has been left behind is current never again. Which
calls have advanced the generation of a member is read off the past (`advancers`).
-/

namespace WorkerBroker

namespace Standing

/-- No connection of a member was announced later than the last one. -/
def Dated (s : Standing) : Prop :=
  ∀ n ch, (s.member n).channel = some ch → ch.generation ≤ (s.member n).generation

theorem generation_le_change (s : Standing) (n k : Nat) {f : Member → Member}
    (hf : ∀ m, m.generation ≤ (f m).generation) :
    (s.member k).generation ≤ ((s.change n f).member k).generation := by
  rw [member_change]
  split
  · rename_i hk
    rw [hk.1]
    exact hf _
  · exact Nat.le_refl _

theorem generation_disconnect (s : Standing) (n k : Nat) :
    ((s.disconnect n).member k).generation = (s.member k).generation := by
  by_cases hk : k = n
  · rw [hk, member_disconnect_self]
  · rw [member_disconnect_ne s hk]

namespace Dated

variable {s : Standing}

theorem change (h : s.Dated) (n : Nat) {f : Member → Member} (hc : ∀ m, (f m).channel = m.channel)
    (hg : ∀ m, m.generation ≤ (f m).generation) : (s.change n f).Dated := by
  intro k ch hk
  rw [channel_change hc] at hk
  exact Nat.le_trans (h k ch hk) (s.generation_le_change n k hg)

theorem disconnect (h : s.Dated) (n : Nat) : (s.disconnect n).Dated := by
  intro k ch hk
  by_cases e : k = n
  · rw [e, member_disconnect_self] at hk
    cases hk
  · rw [member_disconnect_ne s e] at hk ⊢
    exact h k ch hk

theorem enrol (h : s.Dated) (kind : WorkerKind) (id : UInt32) (link : Nat) :
    (s.enrol kind id link).Dated := by
  intro k ch hk
  rcases Nat.lt_trichotomy k s.members.length with hlt | rfl | hgt
  · rw [member_enrol_old _ _ _ hlt] at hk ⊢
    exact h k ch hk
  · rw [member_enrol_new] at hk ⊢
    cases hk
    exact Nat.le_refl _
  · rw [member_of_length_le (by rw [length_enrol]; omega)] at hk
    cases hk

/-- A connection is installed that was announced with the generation of the member. -/
theorem give (h : s.Dated) {n l g : Nat} (hg : (s.member n).generation = g) :
    (s.change n fun m => { m with channel := some ⟨l, g⟩ }).Dated := by
  intro k ch hk
  rw [member_change] at hk ⊢
  split
  · rename_i hkn
    rw [if_pos hkn] at hk
    cases hk
    exact Nat.le_of_eq hg.symm
  · rename_i hkn
    rw [if_neg hkn] at hk
    exact h k ch hk

end Dated

end Standing

namespace Broker

variable {ω : Type}

/-! ## Acts and turns -/

/-- Acts only advance the generation of a member. -/
theorem generation_act (b : Broker ω) (a : Act) (n : Nat) :
    (b.standing.member n).generation ≤ ((b.act a).2.standing.member n).generation := by
  cases a with
  | enrol kind id link =>
    rw [standing_enrol]
    rcases Nat.lt_or_ge n b.standing.members.length with hlt | hge
    · exact Nat.le_of_eq (by rw [Standing.member_enrol_old _ _ _ hlt])
    · rw [Standing.member_of_length_le hge]
      exact Nat.zero_le _
  | strike r =>
    rw [standing_strike]
    split <;> exact Nat.le_refl _
  | dismiss kind id =>
    rcases b.standing_dismiss kind id with e | e <;>
      exact Nat.le_of_eq (by simp only [e, Standing.member_unregister])
  | advance r =>
    rw [standing_advance]
    exact Standing.generation_le_change _ _ _ fun m => Nat.le_succ _
  | discard l =>
    change _ ≤ ((b.hangUp l).standing.member n).generation
    rw [standing_hangUp]
    exact Nat.le_refl _
  | find _ | roster | reinstate _ => exact Nat.le_refl _

/-- No turn changes the generation of a member. -/
theorem generation_take (b : Broker ω) (k : Nat) (turn : Turn) (n : Nat) :
    ((b.take k turn).2.standing.member n).generation = (b.standing.member n).generation := by
  have hchange : ∀ (s : Standing) {f : Member → Member},
      (∀ m, (f m).generation = m.generation) →
      ((s.change k f).member n).generation = (s.member n).generation := by
    intro s f hf
    rw [Standing.member_change]
    split
    · rename_i hn
      rw [hf, hn.1]
    · rfl
  cases turn with
  | offer g l =>
    rcases ha : (b.take k (.offer g l)).1 with _ | _ | _
    · rw [(take_offer_taken ha).2.2, hchange _ (by intro; rfl), Standing.generation_disconnect]
    · rw [(take_offer_superseded ha).2.2, standing_hangUp]
      rfl
    · rw [(take_offer_handedBack ha).2]
  | shut => rw [standing_shut, hchange _ (by intro; rfl), Standing.generation_disconnect]
  | retire =>
    rcases ha : (b.take k .retire).1 with _ | _
    · rw [(take_retire_false ha).2]
    · rw [(take_retire_true ha).2, hchange _ (by intro; rfl)]
  | look => rfl

theorem dated_act {b : Broker ω} (h : b.standing.Dated) (a : Act) :
    (b.act a).2.standing.Dated := by
  cases a with
  | enrol kind id link =>
    rw [standing_enrol]
    exact h.enrol kind id link
  | strike r =>
    rw [standing_strike]
    split <;> exact h
  | dismiss kind id =>
    rcases b.standing_dismiss kind id with e | e <;> rw [e] <;> exact h
  | advance r =>
    rw [standing_advance]
    exact h.change _ (by intro; rfl) fun _ => Nat.le_succ _
  | discard l =>
    change (b.hangUp l).standing.Dated
    rw [standing_hangUp]
    exact h
  | find _ | roster | reinstate _ => exact h

theorem dated_take {b : Broker ω} (h : b.standing.Dated) (n : Nat) (turn : Turn) :
    (b.take n turn).2.standing.Dated := by
  cases turn with
  | offer g l =>
    rcases ha : (b.take n (.offer g l)).1 with _ | _ | _
    · rw [(take_offer_taken ha).2.2]
      refine (h.disconnect n).give ?_
      rw [Standing.generation_disconnect, generation_standing]
      exact (take_offer_taken ha).2.1
    · rw [(take_offer_superseded ha).2.2, standing_hangUp]
      exact h
    · rw [(take_offer_handedBack ha).2]
      exact h
  | shut =>
    rw [standing_shut]
    exact (h.disconnect n).change _ (by intro; rfl) (by intro; exact Nat.le_refl _)
  | retire =>
    rcases ha : (b.take n .retire).1 with _ | _
    · rw [(take_retire_false ha).2]
      exact h
    · rw [(take_retire_true ha).2]
      exact h.change _ (by intro; rfl) (by intro; exact Nat.le_refl _)
  | look => exact h

end Broker

/-! ## Calls that announce something -/

section

variable {ω : Type}

/-- The call that advances the generation of a member, if the move does that. -/
def Deed.advancer? (r : Ref) (d : Deed ω) : Option Nat :=
  match d.move with
  | .run c =>
    match d.before.phase? c with
    | some (.running (.act (.advance r') _)) => if r' = r then some c else none
    | _ => none
  | _ => none

/-- The calls that have advanced the generation of a member, one after the other. -/
def advancers (r : Ref) (past : List (Deed ω)) : List Nat :=
  past.filterMap (Deed.advancer? r)

theorem Deed.advancer?_eq_some {r : Ref} {d : Deed ω} {c : Nat} :
    d.advancer? r = some c ↔
      d.move = .run c ∧ ∃ next, d.before.phase? c = some (.running (.act (.advance r) next)) := by
  obtain ⟨b, m⟩ := d
  constructor
  · intro h
    simp only [advancer?] at h
    split at h
    · split at h
      · rename_i hp
        split at h
        · rename_i hr
          cases h
          exact ⟨rfl, _, hr ▸ hp⟩
        · cases h
      · cases h
    · cases h
  · rintro ⟨rfl, next, hp⟩
    simp only [advancer?, hp, if_true]

theorem advancers_snoc (r : Ref) (past : List (Deed ω)) (d : Deed ω) :
    advancers r (past ++ [d]) = advancers r past ++ (d.advancer? r).toList :=
  filterMap_snoc _ past d

end

end WorkerBroker
