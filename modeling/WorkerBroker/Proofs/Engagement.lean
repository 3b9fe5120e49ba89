import WorkerBroker.Proofs.Course
import WorkerBroker.Proofs.Script
/-!
# What calls have to do with an id

Some operations are about the worker of one id from the start. For the registration of a secondary
it turns out only later, when the worker says who it is (`Broker.Identifies`). A call that has
nothing to do with an id by either way (`Engaged`) never gets a connection of that id in hand, and
never displaces a member of it: `Broker.Attested` is the invariant.
-/

namespace WorkerBroker

open Function (update)

/-- Whether it registers, ends or drops a worker of this id, as far as is known from the start. -/
def Operation.Concerns (id : UInt32) : Operation → Prop
  | exit r | close r | replaceConnection r _ => r.id = id
  | terminate _ i => i = id
  | registerPrimary _ => id = primaryId
  | registerSecondary _ | listing | cpuUsage | cpuUnused _ _ | execute _ _ | retire _ => False

/-- A registration gets to know who its connection belongs to: for the primary's listener it is
known from the start, and a secondary says so. -/
def Broker.Identifies (asked : Nat → Operation) (b : Broker Result) (c link : Nat)
    (who : Identity) (m : Move Result) : Prop :=
  ((∃ program refs brings, m = .start program refs brings) ∧ c = b.calls.length ∧
      asked c = .registerPrimary link ∧ who = (.primary, primaryId)) ∨
    ∃ raw, b.Hears c link (.ok raw) m ∧ identity? (.ok raw) = some who

/-- Whether a call has to do with an id, after what has happened. -/
def Engaged (asked : Nat → Operation) (past : List (Deed Result)) (id : UInt32) (c : Nat) : Prop :=
  (asked c).Concerns id ∨
    ∃ d ∈ past, ∃ link kind, d.before.Identifies asked c link (kind, id) d.move

theorem Engaged.mono {asked : Nat → Operation} {past past' : List (Deed Result)} {id : UInt32}
    {c : Nat} (h : Engaged asked past id c) (hs : past ⊆ past') : Engaged asked past' id c :=
  h.imp_right fun ⟨d, hd, h⟩ => ⟨d, hs hd, h⟩

/-! ## Whether it can be computed -/

/-- The call that hears who its connection belongs to, with the connection and the answer. -/
def Deed.heard? (d : Deed Result) : Option (Nat × Nat × Identity) :=
  match d.move with
  | .hear c =>
    match d.before.phase? c with
    | some (.greeting link _ _) =>
      (d.before.link link).receive?.bind fun r => (identity? r.1).map fun who => (c, link, who)
    | _ => none
  | _ => none

theorem Deed.heard?_eq_some {d : Deed Result} {c link : Nat} {who : Identity} :
    d.heard? = some (c, link, who) ↔
      ∃ raw, d.before.Hears c link (.ok raw) d.move ∧ identity? (.ok raw) = some who := by
  obtain ⟨b, m⟩ := d
  constructor
  · intro h
    simp only [heard?] at h
    split at h
    · split at h
      · rename_i hp
        obtain ⟨⟨o, rest⟩, hr, h⟩ := Option.bind_eq_some_iff.1 h
        obtain ⟨who, hwho, h⟩ := Option.map_eq_some_iff.1 h
        cases h
        cases o with
        | ok raw => exact ⟨raw, ⟨rfl, ⟨_, _, hp⟩, rest, hr⟩, hwho⟩
        | error s => cases hwho
      · cases h
    · cases h
  · rintro ⟨raw, hh, hwho⟩
    cases m with
    | hear k =>
      obtain ⟨rfl, ⟨deadline, next, hp⟩, rest, hr⟩ := hh
      simp only [heard?, hp, hr, Option.bind_some, hwho, Option.map_some]
    | giveUp k =>
      obtain ⟨-, -, h⟩ := hh
      cases h
    | run k =>
      obtain ⟨-, -, -, h⟩ := hh
      cases h
    | _ => exact hh.elim

theorem Broker.identifies_of_heard {asked : Nat → Operation} {d : Deed Result} {c link : Nat}
    {who : Identity} (h : d.heard? = some (c, link, who)) :
    d.before.Identifies asked c link who d.move :=
  .inr (Deed.heard?_eq_some.1 h)

theorem engaged_iff {asked : Nat → Operation} {past : List (Deed Result)} {id : UInt32} {c : Nat} :
    Engaged asked past id c ↔ (asked c).Concerns id ∨
      ∃ d ∈ past, d.heard?.any fun h => h.1 = c ∧ h.2.2.2 = id := by
  constructor
  · rintro (h | ⟨d, hd, link, kind, ⟨-, -, hasked, hwho⟩ | h⟩)
    · exact .inl h
    · refine .inl ?_
      rw [hasked]
      exact congrArg Prod.snd hwho
    · refine .inr ⟨d, hd, ?_⟩
      rw [Deed.heard?_eq_some.2 h]
      simp
  · rintro (h | ⟨d, hd, h⟩)
    · exact .inl h
    · obtain ⟨⟨k, link, kind, i⟩, hh, h⟩ := (Option.any_eq_true _ _).1 h
      obtain ⟨rfl, rfl⟩ : k = c ∧ i = id := by simpa using h
      exact .inr ⟨d, hd, link, kind, Broker.identifies_of_heard hh⟩

instance (op : Operation) (id : UInt32) : Decidable (op.Concerns id) :=
  match op with
  | .exit r | .close r | .replaceConnection r _ => inferInstanceAs (Decidable (r.id = id))
  | .terminate _ i => inferInstanceAs (Decidable (i = id))
  | .registerPrimary _ => inferInstanceAs (Decidable (id = primaryId))
  | .registerSecondary _ | .listing | .cpuUsage | .cpuUnused _ _ | .execute _ _ | .retire _ =>
    inferInstanceAs (Decidable False)

instance (asked : Nat → Operation) (past : List (Deed Result)) (id : UInt32) (c : Nat) :
    Decidable (Engaged asked past id c) :=
  decidable_of_iff _ engaged_iff.symm

/-- At the move of this number a worker says who it is. From then on nobody but certain calls has to
do with its id, and its connection does not fail. -/
def Arrives (asked : Nat → Operation) (ends : Nat → Prop) (n c link : Nat) (who : Identity)
    (past : List (Deed Result)) : Prop :=
  (∃ d ∈ past[n]?, d.heard? = some (c, link, who)) ∧
    (∀ d ∈ past.drop (n + 1), ∀ k < d.before.calls.length, d.before.IsActive k → k ≠ c →
      Engaged asked past who.2 k → ends k) ∧
    ∀ e ∈ log (past.drop (n + 1)), e.fails link = false

instance (asked : Nat → Operation) (ends : Nat → Prop) [DecidablePred ends] (n c link : Nat)
    (who : Identity) (past : List (Deed Result)) :
    Decidable (Arrives asked ends n c link who past) :=
  inferInstanceAs (Decidable ((∃ d ∈ past[n]?, _) ∧
    (∀ d ∈ past.drop (n + 1), ∀ k < d.before.calls.length, _) ∧
    ∀ e ∈ log (past.drop (n + 1)), e.fails link = false))

/-- The worker says who it is between what has happened before and what has happened since. -/
theorem Arrives.split {asked : Nat → Operation} {ends : Nat → Prop} {n c link : Nat}
    {who : Identity} {past : List (Deed Result)} (h : Arrives asked ends n c link who past) :
    ∃ past₁ b₁ m past₂, past = past₁ ++ ⟨b₁, m⟩ :: past₂ ∧ past[n]? = some ⟨b₁, m⟩ ∧
      b₁.Identifies asked c link who m ∧
      (∀ d ∈ past₂, ∀ k, d.before.IsActive k → k ≠ c → Engaged asked past who.2 k → ends k) ∧
      ∀ t s, .ended t link (.error s) ∉ log past₂ := by
  obtain ⟨⟨⟨b₁, m⟩, hd, hheard⟩, halone, hfail⟩ := h
  refine ⟨past.take n, b₁, m, past.drop (n + 1), ?_, hd, Broker.identifies_of_heard hheard,
    fun d hd k hk => halone d hd k hk.lt_length hk, fun t s he => ?_⟩
  · obtain ⟨hlt, hd⟩ := List.getElem?_eq_some_iff.1 hd
    rw [← hd, List.getElem_cons_drop, List.take_append_drop]
  · have := hfail _ he
    simp [Event.fails] at this

/-! ## Burdens -/

/-- Whether a burden is about the registration of a worker of an id. -/
def Burden.Touches (id : UInt32) : Burden → Prop
  | .carries _ (some p) | .found _ _ p => p.2 = id
  | .announced r _ _ | .displaced r => r.id = id
  | _ => False

/-- Without a connection in hand, it is about a member that has been displaced. -/
theorem Burden.displaced_of_touches {β : Burden} {id : UInt32} (h : β.Touches id)
    (hl : β.link? = none) : ∃ r, β = .displaced r := by
  cases β with
  | displaced r => exact ⟨r, rfl⟩
  | carries _ _ | found _ _ _ | announced _ _ _ | spoilt _ => cases hl
  | nothing | retired _ | closing _ | closed _ _ => exact h.elim

namespace Broker

variable {asked : Nat → Operation} {b b' : Broker Result} {m : Move Result} {β β' : Nat → Burden}
  {id : UInt32} {c : Nat} {β₀ β₁ : Burden}

/-- No act makes a burden be about another id. -/
theorem touches_act {licence : Licence Result} {a : Act} {x : a.Answer}
    (hs : b.standing.Sound β) (ha : β₀.Acts licence a x β₁) (hx : (b.act a).1 = x)
    (h : β₁.Touches id) : β₀.Touches id := by
  have hfor : ∀ {l p}, β₀.IsFor l p → p.2 = id → β₀.Touches id := by
    rintro l p (rfl | ⟨r, rfl⟩) hid <;> exact hid
  cases ha with
  | lookUp _ | miss | roster | depose => exact h
  | hit => exact h
  | displace hf =>
    -- whoever is displaced was registered under the id of the worker
    obtain ⟨hid, -⟩ := hs.keyed _ _ hx
    exact hfor hf (hid ▸ h)
  | announce hf => rcases hf with ⟨-, rfl⟩ | rfl <;> exact h
  | _ => exact h.elim

theorem touches_turn {licence : Licence Result} {r : Ref} {t : Turn} {x : t.Answer}
    (ht : β₀.Turns licence r t x β₁) (h : β₁.Touches id) : β₀.Touches id := by
  cases ht with
  | handedBack | look => exact h
  | _ => exact h.elim

theorem touches_update {k : Nat} (h : (update β c β₁ k).Touches id)
    (hβ : β₁.Touches id → (β c).Touches id) : (β k).Touches id := by
  by_cases hk : k = c
  · rw [hk, Function.update_self] at h
    rw [hk]
    exact hβ h
  · rwa [Function.update_of_ne hk] at h

/-- Whatever a call has in hand of an id, the call has to do with that id. -/
def Attested (asked : Nat → Operation) (past : List (Deed Result)) (β : Nat → Burden) : Prop :=
  ∀ c id, (β c).Touches id → Engaged asked past id c

theorem Attested.step {past : List (Deed Result)} (h : Attested asked past β)
    (hm : Stride asked b m β b' β') : Attested asked (past ++ [⟨b, m⟩]) β' := by
  intro k id hk
  have hold : (β k).Touches id → Engaged asked (past ++ [⟨b, m⟩]) id k := fun hk =>
    (h k id hk).mono (List.subset_append_left ..)
  have hnew : ∀ {link kind}, b.Identifies asked k link (kind, id) m →
      Engaged asked (past ++ [⟨b, m⟩]) id k := fun hi =>
    .inr ⟨⟨b, m⟩, List.mem_append_right _ List.mem_cons_self, _, _, hi⟩
  have hmove := hm.effect
  generalize b'.standing = s' at hmove
  cases hmove with
  | still _ | accepted _ | failed _ _ _ _ _ _ | released _ _ _ => exact hold hk
  | begun op hop hmv _ _ =>
    by_cases hkc : k = b.calls.length
    · subst hkc
      rw [Function.update_self] at hk
      left
      rw [← hop]
      cases op with
      | registerPrimary l => exact hk.symm
      | replaceConnection r l => exact hk
      | _ => exact hk.elim
    · rw [Function.update_of_ne hkc] at hk
      exact hold hk
  | finished c _ _ => exact hold (touches_update hk False.elim)
  | acted c a β₁ _ _ _ ha =>
    exact hold (touches_update hk fun h => touches_act hm.before.sound ha rfl h)
  | turned c r turn β₁ _ _ _ ht => exact hold (touches_update hk fun h => touches_turn ht h)
  | greeted c l o hh hβ =>
    by_cases hkc : k = c
    · subst hkc
      rw [Function.update_self] at hk
      cases o with
      | error s => exact hk.elim
      | ok raw =>
        rw [Burden.afterGreeting] at hk
        rcases hi : identity? (.ok raw) with _ | ⟨kind, i⟩
        · rw [hi] at hk
          exact hk.elim
        · rw [hi] at hk
          obtain rfl : i = id := hk
          exact hnew (.inr ⟨raw, hh, hi⟩)
    · rw [Function.update_of_ne hkc] at hk
      exact hold hk

/-- A call that is told who its connection is has it in hand from then on, and it is the
registration of that connection. -/
theorem Identifies.effect {link : Nat} {who : Identity} {s' : Standing} (hc : Course asked b β)
    (h : b.Identifies asked c link who m) (he : Effect asked b m β s' β') :
    β' c = .carries link (some who) ∧
      (asked c = .registerPrimary link ∨ asked c = .registerSecondary link) := by
  rcases h with ⟨⟨program, refs, brings, rfl⟩, rfl, hop, rfl⟩ | ⟨raw, hh, hi⟩
  · refine ⟨?_, .inl hop⟩
    cases he with
    | still hm => exact absurd rfl (hm.start program refs brings)
    | begun op hop' _ _ _ =>
      rw [Function.update_self, hop', hop]
      rfl
    | greeted _ _ _ hm _ => exact hm.elim
    | failed _ _ _ _ he _ => cases he
    | turned _ _ _ _ hm _ _ _ | finished _ hm _ | acted _ _ _ hm _ _ _ => cases hm.1
    | accepted hm | released _ hm _ => cases hm
  · rw [hc.hears hh he, Function.update_self, Burden.afterGreeting, hi]
    exact ⟨rfl, .inr ((hc.calls.suits c).unknown link (hc.carries_of_hears hh))⟩

end Broker

end WorkerBroker
