import WorkerBroker.Proofs.Generations
import WorkerBroker.Proofs.Progress
/-!
# What happens to one member

The effects of a move (`Effect`) are about everybody. Whoever looks at a single member sees less:
its generation is advanced, a call has its turn on it, an exchange with its worker fails, it is
dropped because nobody refers to it any more, or nothing happens to it at all
(`Broker.Stride.incident`). So what is to be shown of one member in a run has five cases.

Two things follow at once. The generation counts how often it has been advanced
(`Broker.Stride.generation`), so that each connection that is announced has a generation of its
own (`Standing.Numbered`). And a member that is retired stays so.
-/

namespace WorkerBroker

open Function (update)

namespace Broker

/-- A call goes on that has come across a member. -/
def Handles {ω : Type} (b : Broker ω) (c : Nat) (r : Ref) : Prop :=
  ∃ call, b.calls[c]? = some call ∧ call.isActive ∧ r ∈ call.refs

instance {ω : Type} (b : Broker ω) (c : Nat) (r : Ref) : Decidable (b.Handles c r) :=
  inferInstanceAs (Decidable (∃ call ∈ b.calls[c]?, call.isActive ∧ r ∈ call.refs))

variable {asked : Nat → Operation} {b b' : Broker Result} {m : Move Result}
  {β β' : Nat → Burden} {c : Nat} {r : Ref}

/-! ## Moves whose effect is known -/

/-- A call has its turn on a member. -/
theorem Stride.turned {turn : Turn} (h : Stride asked b m β b' β') (he : b.Enters c r turn m) :
    ∃ β₁, (β c).Turns (asked c).licence r turn (b.take r.number turn).1 β₁ ∧
      b'.standing = (b.take r.number turn).2.standing ∧ β' = update β c β₁ := by
  have hm : m = .serve r.number := he.1
  have heffect := h.effect
  generalize b'.standing = s' at heffect ⊢
  cases heffect with
  | still hp => exact absurd he (hp.enters c r turn)
  | turned c' r' turn' β₁ he' _ _ ht =>
    obtain ⟨rfl, rfl, rfl⟩ := he.ext he'
    exact ⟨β₁, ht, rfl, rfl⟩
  | greeted c' l o hh _ => rw [hm] at hh; exact hh.elim
  | failed n ch t s he' _ => cases he.event?.symm.trans he'
  | accepted hm' | begun _ _ hm' _ _ | released _ hm' _ => cases hm.symm.trans hm'
  | finished _ hm' _ | acted _ _ _ hm' _ _ _ => cases hm.symm.trans hm'.1

/-- A call has advanced the generation of a member. -/
theorem standing_of_advancer? (hm : b.step m = some b')
    (h : Deed.advancer? r ⟨b, m⟩ = some c) :
    b'.standing =
      b.standing.change r.number fun m => { m with generation := m.generation + 1 } := by
  obtain ⟨rfl, next, hp⟩ := Deed.advancer?_eq_some.1 h
  simp only [step, hp, Option.some.injEq] at hm
  rw [← hm, stepProgram, standing_setPhase, standing_meet, standing_advance]

theorem generation_of_advancer? (hm : b.step m = some b') (hr : b.standing.Genuine r)
    (h : Deed.advancer? r ⟨b, m⟩ = some c) :
    (b'.standing.member r.number).generation = (b.standing.member r.number).generation + 1 := by
  rw [standing_of_advancer? hm h, Standing.member_change_self hr.1]

/-! ## What is announced -/

theorem announced_of_update {k : Nat} {β₁ : Burden} {g l : Nat}
    (h : update β k β₁ c = .announced r g l) :
    β c = .announced r g l ∨ c = k ∧ β₁ = .announced r g l := by
  by_cases hck : c = k
  · rw [hck, Function.update_self] at h
    exact .inr ⟨hck, h⟩
  · rw [Function.update_of_ne hck] at h
    exact .inl h

/-- What is announced after a move was announced before, or it has just got the new generation of
its member. -/
theorem Stride.announced (h : Stride asked b m β b' β') {g l : Nat}
    (hc : β' c = .announced r g l) :
    β c = .announced r g l ∨ Deed.advancer? r ⟨b, m⟩ = some c ∧ b.standing.Genuine r ∧
      g = (b.standing.member r.number).generation + 1 := by
  have heffect := h.effect
  generalize b'.standing = s' at heffect
  cases heffect with
  | still _ | accepted _ | failed _ _ _ _ _ _ | released _ _ _ => exact .inl hc
  | begun op _ _ _ _ =>
    refine (announced_of_update hc).imp_right fun ⟨_, hop⟩ => ?_
    cases op <;> cases hop
  | finished k _ _ => exact (announced_of_update hc).imp_right fun ⟨_, hk⟩ => by cases hk
  | greeted k l' o _ _ =>
    refine (announced_of_update hc).imp_right fun ⟨_, hk⟩ => ?_
    cases o <;> cases hk
  | acted k a β₁ hm _ hmem hacts =>
    rcases announced_of_update hc with hold | ⟨rfl, rfl⟩
    · exact .inl hold
    · generalize hβ : β c = β₀ at hacts
      generalize hx : (b.act a).1 = x at hacts
      cases hacts with
      | lookUp _ | roster => exact .inl rfl
      | announce _ =>
        obtain ⟨rfl, next, hp⟩ := hm
        refine .inr ⟨Deed.advancer?_eq_some.2 ⟨rfl, next, hp⟩, hmem r rfl, ?_⟩
        rw [← hx, generation_standing]
        rfl
  | turned k r' turn β₁ _ _ _ hturn =>
    rcases announced_of_update hc with hold | ⟨rfl, rfl⟩
    · exact .inl hold
    · generalize hβ : β c = β₀ at hturn
      generalize (b.take r'.number turn).1 = x at hturn
      cases hturn
      exact .inl rfl

end Broker

/-! ## The five cases -/

/-- What a move can do to one member. -/
inductive Incident (asked : Nat → Operation) (b : Broker Result) (m : Move Result)
    (β : Nat → Burden) (r : Ref) (b' : Broker Result) (β' : Nat → Burden) : Prop where
  | spared (hs : b'.standing.member r.number = b.standing.member r.number)
      (ha : Deed.advancer? r ⟨b, m⟩ = none) (he : ∀ c turn, ¬b.Enters c r turn m)
  | advanced (c : Nat) (β₁ : Burden) (ha : Deed.advancer? r ⟨b, m⟩ = some c)
      (hc : b.Handles c r)
      (h : (β c).Acts (asked c).licence (.advance r) (b.act (.advance r)).1 β₁)
      (hs : b'.standing =
        b.standing.change r.number fun m => { m with generation := m.generation + 1 })
      (hβ : β' = update β c β₁)
  | turned (c : Nat) (turn : Turn) (β₁ : Burden) (he : b.Enters c r turn m)
      (hc : b.Handles c r)
      (h : (β c).Turns (asked c).licence r turn (b.take r.number turn).1 β₁)
      (hs : b'.standing = (b.take r.number turn).2.standing) (hβ : β' = update β c β₁)
  | failed (ch : Channel) (t : Ticket) (s : Silence)
      (he : Deed.event? ⟨b, m⟩ = some (.ended t ch.link (.error s)))
      (hc : (b.standing.member r.number).channel = some ch)
      (hs : b'.standing = b.standing.disconnect r.number) (hβ : β' = β)
  | released (hm : m = .release r.number)
      (hs : b'.standing = b.standing.disconnect r.number) (hβ : β' = β)

namespace Broker

variable {asked : Nat → Operation} {b b' : Broker Result} {m : Move Result}
  {β β' : Nat → Burden} {c : Nat} {r : Ref}

/-- Nothing has happened to the member. -/
theorem Stride.spared (h : Stride asked b m β b' β') (hr : b.standing.Genuine r)
    (hs : b'.standing.member r.number = b.standing.member r.number)
    (he : ∀ c turn, ¬b.Enters c r turn m) : Incident asked b m β r b' β' := by
  refine .spared hs ?_ he
  rcases ha : Deed.advancer? r ⟨b, m⟩ with _ | c
  · rfl
  · have := generation_of_advancer? h.step hr ha
    rw [hs] at this
    omega

/-- What a move does to one member is one of these. -/
theorem Stride.incident (h : Stride asked b m β b' β') (hr : b.standing.Genuine r) :
    Incident asked b m β r b' β' := by
  obtain ⟨hcourse, -, heffect, -⟩ := id h
  have hrefs : ∀ {k p}, b.phase? k = some p → p.IsWaiting ∨ (∃ q, p = .running q) →
      ∃ call, b.calls[k]? = some call ∧ call.isActive ∧
        p.Bears (asked k).licence call.refs (β k) := by
    intro k p hp hactive
    obtain ⟨call, hcall, rfl⟩ := exists_call_of_phase hp
    refine ⟨call, hcall, ?_, hcourse.calls.bears k call hcall⟩
    rw [Call.isActive]
    rcases hactive with hwait | ⟨q, hq⟩
    · cases hph : call.phase <;> rw [hph] at hwait <;> first | rfl | exact hwait.elim
    · rw [hq]
  generalize hs' : b'.standing = s' at heffect
  cases heffect with
  | still hp => exact h.spared hr (by rw [hs']) fun c turn => hp.enters c r turn
  | accepted hm =>
    exact h.spared hr (by rw [hs']; rfl) fun c turn he => by cases hm.symm.trans he.1
  | begun op hop hm ha _ =>
    exact h.spared hr (by rw [hs']) fun c turn he => by cases hm.symm.trans he.1
  | finished k hm _ =>
    exact h.spared hr (by rw [hs']) fun c turn he => by cases hm.1.symm.trans he.1
  | greeted k l o hh _ =>
    refine h.spared hr (by rw [hs']) fun c turn he => ?_
    rw [he.1] at hh
    exact hh
  | acted k a β₁ hm hact hmem hacts =>
    obtain ⟨rfl, next, hp⟩ := hm
    by_cases hadv : ∃ r', a = .advance r' ∧ r'.number = r.number
    · obtain ⟨r', rfl, hn⟩ := hadv
      obtain rfl := (hmem r' rfl).ext hr hn
      obtain ⟨call, hcall, hcact, hb⟩ := hrefs hp (.inr ⟨_, rfl⟩)
      refine .advanced k β₁ (Deed.advancer?_eq_some.2 ⟨rfl, next, hp⟩)
        ⟨call, hcall, hcact, hb.1 _ rfl⟩ hacts ?_ rfl
      rw [hs', standing_advance]
    · refine h.spared hr ?_ fun c turn he => by cases he.1
      rw [hs', member_act_old a hr.1 fun r' e hn => hadv ⟨r', e, hn⟩]
  | turned k r' turn β₁ he hact hr' hturn =>
    by_cases hn : r'.number = r.number
    · obtain rfl := hr'.ext hr hn
      obtain ⟨-, t, next, -, -, hp⟩ := id he
      obtain ⟨call, hcall, hcact, hb⟩ := hrefs hp (.inl trivial)
      exact .turned k turn β₁ he ⟨call, hcall, hcact, hb.1⟩ hturn hs' rfl
    · refine h.spared hr ?_ fun c turn' he' => hn (by rw [(he.ext he').2.1])
      rw [hs', member_standing, member_standing, member_take_ne b turn (Ne.symm hn)]
  | failed n ch t s he hch =>
    by_cases hn : n = r.number
    · subst hn
      exact .failed ch t s he (by rw [channel_standing]; exact hch) hs' rfl
    · exact h.spared hr (by rw [hs', Standing.member_disconnect_ne _ (Ne.symm hn)])
        fun c turn he' => by cases he'.event?.symm.trans he
  | released n hm _ =>
    by_cases hn : n = r.number
    · subst hn
      exact .released hm hs' rfl
    · exact h.spared hr (by rw [hs', Standing.member_disconnect_ne _ (Ne.symm hn)])
        fun c turn he => by cases hm.symm.trans he.1

/-! ## What a member keeps -/

/-- The generation of a member counts how often it has been advanced. -/
theorem Stride.generation (h : Stride asked b m β b' β') (hr : b.standing.Genuine r) :
    (b'.standing.member r.number).generation = (b.standing.member r.number).generation +
      (Deed.advancer? r ⟨b, m⟩).toList.length := by
  rcases ha : Deed.advancer? r ⟨b, m⟩ with _ | c
  · cases h.incident hr with
    | spared hs _ _ => rw [hs]; rfl
    | advanced c β₁ ha' _ _ _ _ => cases ha.symm.trans ha'
    | turned c turn β₁ _ _ _ hs _ => rw [hs, generation_take]; rfl
    | failed ch t s _ _ hs _ | released _ hs _ => rw [hs, Standing.generation_disconnect]; rfl
  · exact generation_of_advancer? h.step hr ha

/-- A member that is retired stays so. -/
theorem Stride.retired (h : Stride asked b m β b' β') (hr : b.standing.Genuine r)
    (hret : (b.standing.member r.number).retired) : (b'.standing.member r.number).retired := by
  cases h.incident hr with
  | spared hs _ _ => rwa [hs]
  | advanced c β₁ _ _ _ hs _ =>
    rw [hs]
    exact Standing.retired_change ⟨fun _ => rfl, fun _ => rfl, fun _ => id⟩ hret
  | failed ch t s _ _ hs _ | released _ hs _ => rwa [hs, Standing.retired_disconnect]
  | turned c turn β₁ _ _ _ hs _ =>
    rw [hs]
    have hkeeps : Standing.Keeps fun m => { m with retired := true } :=
      ⟨fun _ => rfl, fun _ => rfl, fun _ _ => rfl⟩
    cases turn with
    | offer g l =>
      rcases ha : (b.take r.number (.offer g l)).1 with _ | _ | _
      · rw [retired_standing, (take_offer_taken ha).1] at hret
        cases hret
      · rw [(take_offer_superseded ha).2.2, standing_hangUp]
        exact hret
      · rwa [(take_offer_handedBack ha).2]
    | shut =>
      rw [standing_shut]
      exact Standing.retired_change hkeeps (by rwa [Standing.retired_disconnect])
    | retire =>
      rcases ha : (b.take r.number .retire).1 with _ | _
      · rwa [(take_retire_false ha).2]
      · rw [(take_retire_true ha).2]
        exact Standing.retired_change hkeeps hret
    | look => exact hret

end Broker

/-! ## Generations are given out once -/

/-- A connection that is announced has a generation that its member has reached, and no other
connection is announced with it. -/
structure Standing.Numbered (s : Standing) (β : Nat → Burden) : Prop where
  reached : ∀ c r g l, β c = .announced r g l → g ≤ (s.member r.number).generation
  once : ∀ c d r g l l', β c = .announced r g l → β d = .announced r g l' → c = d

namespace Broker

variable {asked : Nat → Operation} {b b' : Broker Result} {m : Move Result}
  {β β' : Nat → Burden}

/-- Nobody gets a generation that has been given out before. -/
theorem Stride.numbered (h : Stride asked b m β b' β') (hn : b.standing.Numbered β) :
    b'.standing.Numbered β' where
  reached c r g l hc := by
    rcases h.announced hc with hold | ⟨ha, hr, rfl⟩
    · exact Nat.le_trans (hn.reached c r g l hold) (h.effect.generation_le r.number)
    · exact Nat.le_of_eq (generation_of_advancer? h.step hr ha).symm
  once c d r g l l' hc hd := by
    rcases h.announced hc with hc | ⟨hac, hr, rfl⟩ <;>
      rcases h.announced hd with hd | ⟨had, -, hg⟩
    · exact hn.once c d r g l l' hc hd
    · have := hn.reached c r g l hc
      omega
    · have := hn.reached d r _ l' hd
      omega
    · exact Option.some.inj (hac.symm.trans had)

end Broker

end WorkerBroker
