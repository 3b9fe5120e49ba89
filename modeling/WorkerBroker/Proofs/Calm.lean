import WorkerBroker.Proofs.Engagement
/-!
# What a connection on its way is safe from

A worker has connected and has said who it is. From then on its connection is `Pending`: it is in
the hands of the registration, which looks for a member to place it with, announces it and offers
it. In the end it is `Settled`: a member is registered under the id of the worker and has the
connection.

`Calm` is all that either needs of whatever happens meanwhile, and the lemmas of the second part
say that nearly everything is calm. Sweeps retire members and strike them off at any time, but only
those that have no connection. Registrations of other workers, their sweeps and their ends do not
come near.

What may come between is an exit. It advances the generation of a member and shuts it, whether or
not a connection has been offered meanwhile. So everything is stated with the calls that may end a
member of the id (`ends`), and with the members that the connection was offered to while they could
take it (`offered`): a connection that such a member was offered can be lost, and no other.
-/

namespace WorkerBroker

open Function (update)

/-- The connection of a registration is in hand. Whoever it is announced to will take it, unless the
member is being closed, or hand it back. -/
inductive Pending (s : Standing) (β : Nat → Burden) (ends : Nat → Prop) (c link : Nat)
    (who : Identity) : Prop where
  | inHand (h : β c = .carries link (some who))
  | found (r : Ref) (h : β c = .found r link who)
      (hr : s.Registers r ∨ (s.member r.number).retired)
  | announced (r : Ref) (g : Nat) (h : β c = .announced r g link) (hwho : (r.kind, r.id) = who)
      (hr : (s.member r.number).retired ∨ s.Registers r ∧
        ((s.member r.number).generation = g ∨ ∃ k, ends k ∧ β k = .closing r))

/-- The connection of a registration has been placed with a member that is registered, one that was
made for it or one that was offered it. In the second case it is lost if the member is closed. -/
inductive Settled (s : Standing) (β : Nat → Burden) (ends : Nat → Prop) (first : Nat)
    (offered : Ref → Prop) (link : Nat) (who : Identity) : Prop where
  | kept (r : Ref) (ho : first ≤ r.number ∧ (∀ r', ¬offered r') ∨
        offered r ∧ ∀ r', offered r' → r' = r)
      (hreg : s.Registers r) (hwho : (r.kind, r.id) = who)
      (hret : (s.member r.number).retired = false)
      (hch : ∃ g, (s.member r.number).channel = some ⟨link, g⟩)
  | lost (r : Ref) (ho : offered r) (hclosed : s.IsClosed link)
      (hx : ∃ k, ends k ∧ (β k = .closing r ∨ ∃ struck, β k = .closed r struck))

/-- Nothing happens that could keep a connection of this id from being placed, but that a member is
closed by one of those that may end it. -/
structure Calm (s : Standing) (β : Nat → Burden) (s' : Standing) (β' : Nat → Burden)
    (ends : Nat → Prop) (first link : Nat) (id : UInt32) : Prop where
  registers : ∀ r, r.id = id → s.Registers r → s'.Registers r ∨ (s.member r.number).retired
  retired : ∀ r, s.Genuine r → (s.member r.number).retired → (s'.member r.number).retired
  generation : ∀ r, r.id = id → s.Registers r →
    (s'.member r.number).generation = (s.member r.number).generation ∨
      ∃ k, ends k ∧ β' k = .closing r
  closing : ∀ k r, ends k → β k = .closing r →
    β' k = .closing r ∨ (s'.member r.number).retired
  closes : ∀ k r, ends k → (β k = .closing r ∨ ∃ struck, β k = .closed r struck) →
    β' k = .closing r ∨ ∃ struck, β' k = .closed r struck
  live : ∀ r g, r.id = id → s.Registers r → (s.member r.number).retired = false →
    (s.member r.number).channel = some ⟨link, g⟩ →
      (s'.member r.number).retired = false ∧ (s'.member r.number).channel = some ⟨link, g⟩ ∨
        r.number < first ∧ s'.IsClosed link ∧ ∃ k, ends k ∧ ∃ struck, β' k = .closed r struck
  closed : s.IsClosed link → s'.IsClosed link

/-! ## What is calm -/

section

variable {s s' : Standing} {β β' : Nat → Burden} {ends : Nat → Prop} {first c link : Nat}
  {offered : Ref → Prop} {who : Identity}

theorem Pending.calm (h : Pending s β ends c link who) (hs : s.Sound β)
    (hc : Calm s β s' β' ends first link who.2) (hβ : β' c = β c) :
    Pending s' β' ends c link who := by
  have ht := hs.burdens c
  cases h with
  | inHand h => exact .inHand (hβ.trans h)
  | found r h hr =>
    rw [h] at ht
    refine .found r (hβ.trans h) ?_
    rcases hr with hr | hr
    · exact (hc.registers r ht.2.1 hr).imp_right (hc.retired r ht.1)
    · exact .inr (hc.retired r ht.1 hr)
  | announced r g h hwho hr =>
    rw [h] at ht
    have hid : r.id = who.2 := congrArg Prod.snd hwho
    refine .announced r g (hβ.trans h) hwho ?_
    rcases hr with hr | ⟨hreg, hg⟩
    · exact .inl (hc.retired r ht hr)
    · rcases hc.registers r hid hreg with hreg' | hret
      · rcases hg with hg | ⟨k, hk, hβk⟩
        · rcases hc.generation r hid hreg with e | he
          · exact .inr ⟨hreg', .inl (e.trans hg)⟩
          · exact .inr ⟨hreg', .inr he⟩
        · rcases hc.closing k r hk hβk with e | hret
          · exact .inr ⟨hreg', .inr ⟨k, hk, e⟩⟩
          · exact .inl hret
      · exact .inl (hc.retired r ht hret)

theorem Settled.calm (h : Settled s β ends first offered link who)
    (hc : Calm s β s' β' ends first link who.2) : Settled s' β' ends first offered link who := by
  cases h with
  | kept r ho hreg hwho hret hch =>
    obtain ⟨g, hch⟩ := hch
    have hid : r.id = who.2 := congrArg Prod.snd hwho
    rcases hc.live r g hid hreg hret hch with ⟨hret', hch'⟩ | ⟨hlt, hclosed, k, hk, struck, hβk⟩
    · rcases hc.registers r hid hreg with hreg' | hret₂
      · exact .kept r ho hreg' hwho hret' ⟨g, hch'⟩
      · rw [hret] at hret₂
        cases hret₂
    · rcases ho with ⟨hle, -⟩ | ⟨ho, -⟩
      · omega
      · exact .lost r ho hclosed ⟨k, hk, .inr ⟨struck, hβk⟩⟩
  | lost r ho hclosed hx =>
    obtain ⟨k, hk, hβk⟩ := hx
    exact .lost r ho (hc.closed hclosed) ⟨k, hk, hc.closes k r hk hβk⟩

/-- A burden that is not about the end of a member. -/
def Burden.EndsNobody : Burden → Prop
  | .closing _ | .closed _ _ => False
  | _ => True

/-- Whoever is about to end a member has the same burden as before. -/
theorem update_of_endsNobody {k : Nat} {β₁ : Burden} (hβ : (β k).EndsNobody) {j : Nat} {r : Ref}
    (hj : β j = .closing r ∨ ∃ struck, β j = .closed r struck) : update β k β₁ j = β j := by
  refine Function.update_of_ne ?_ _ _
  rintro rfl
  rcases hj with hj | ⟨struck, hj⟩ <;> rw [hj] at hβ <;> exact hβ

/-- Members and the registry change in calm ways, and no call that is about to end a member
changes its mind. -/
theorem Calm.of_burden {k : Nat} {β₁ : Burden} {id : UInt32} (hβ : (β k).EndsNobody)
    (hreg : ∀ r, r.id = id → s.Registers r → s'.Registers r ∨ (s.member r.number).retired)
    (hret : ∀ r, s.Genuine r → (s.member r.number).retired → (s'.member r.number).retired)
    (hgen : ∀ r, r.id = id → s.Registers r →
      (s'.member r.number).generation = (s.member r.number).generation)
    (hlive : ∀ r g, r.id = id → s.Registers r → (s.member r.number).retired = false →
      (s.member r.number).channel = some ⟨link, g⟩ →
        (s'.member r.number).retired = false ∧ (s'.member r.number).channel = some ⟨link, g⟩)
    (hclosed : s.IsClosed link → s'.IsClosed link) :
    Calm s β s' (update β k β₁) ends first link id where
  registers := hreg
  retired := hret
  generation r hid hr := .inl (hgen r hid hr)
  closing j r _ hj := .inl ((update_of_endsNobody hβ (.inl hj)).trans hj)
  closes j r _ hj := by rwa [update_of_endsNobody hβ hj]
  live r g hid hr hn hch := .inl (hlive r g hid hr hn hch)
  closed := hclosed

/-- Nothing but a burden that is not about the end of a member changes. -/
theorem Calm.burden {k : Nat} {β₁ : Burden} {id : UInt32} (hβ : (β k).EndsNobody) :
    Calm s β s (update β k β₁) ends first link id :=
  .of_burden hβ (fun _ _ => .inl) (fun _ _ h => h) (fun _ _ _ => rfl)
    (fun _ _ _ _ hn hch => ⟨hn, hch⟩) fun h => h

theorem Calm.refl {id : UInt32} : Calm s β s β ends first link id where
  registers _ _ := .inl
  retired _ _ h := h
  generation _ _ _ := .inl rfl
  closing _ _ _ := .inl
  closes _ _ _ h := h
  live _ _ _ _ hn hch := .inl ⟨hn, hch⟩
  closed h := h

theorem Calm.accept {id : UInt32} : Calm s β s.accept β ends first link id where
  registers _ _ := .inl
  retired _ _ h := h
  generation _ _ _ := .inl rfl
  closing _ _ _ := .inl
  closes _ _ _ h := h
  live _ _ _ _ hn hch := .inl ⟨hn, hch⟩
  closed h := h.accept

/-- Calls other than those that may end a member can come to their end at any time. -/
theorem Calm.finished {k : Nat} {β₁ : Burden} {id : UInt32} (hk : ∀ j, ends j → j ≠ k) :
    Calm s β s (update β k β₁) ends first link id where
  registers _ _ := .inl
  retired _ _ h := h
  generation _ _ _ := .inl rfl
  closing j r hj h := .inl ((Function.update_of_ne (hk j hj) _ _).trans h)
  closes j r hj h := by rwa [Function.update_of_ne (hk j hj)]
  live _ _ _ _ hn hch := .inl ⟨hn, hch⟩
  closed h := h

end

/-! ## Calm moves -/

namespace Broker

variable {asked : Nat → Operation} {b : Broker Result} {β : Nat → Burden} {ends : Nat → Prop}
  {first link k : Nat} {id : UInt32} {β₁ : Burden}

/-- What a call may have to do with an id: it has no connection of a worker of that id in hand, and
if it may end a member of that id, then one that was there before. -/
structure Harmless (asked : Nat → Operation) (ends : Nat → Prop) (first : Nat) (id : UInt32)
    (k : Nat) (β₀ : Burden) : Prop where
  touches : β₀.Touches id → ∃ r, β₀ = .displaced r
  closes : ∀ r, (asked k).licence.closes = some r → r.id = id → ends k ∧ r.number < first
  dismisses : (asked k).licence.dismisses ≠ some id

namespace Harmless

theorem not_isFor {β₀ : Burden} (h : Harmless asked ends first id k β₀) {l : Nat} {p : Identity}
    (hf : β₀.IsFor l p) : p.2 ≠ id := by
  intro hid
  rcases hf with rfl | ⟨r, rfl⟩
  · obtain ⟨r, hr⟩ := h.touches hid
    cases hr
  · obtain ⟨r', hr⟩ := h.touches hid
    cases hr

theorem not_announced {r : Ref} {g l : Nat}
    (h : Harmless asked ends first id k (.announced r g l)) : r.id ≠ id := by
  intro hid
  obtain ⟨r', hr⟩ := h.touches hid
  cases hr

end Harmless

/-- One of the members is registered under an id, so another one is not it. -/
theorem number_ne {r r' : Ref} (hs : b.standing.Sound β) (hr : b.standing.Registers r)
    (hr' : b.standing.Genuine r') (hne : r ≠ r') : r.number ≠ r'.number :=
  fun e => hne ((hs.genuine hr).ext hr' e)

/-- Members other than one with this id have changed, as far as those are concerned that are
registered under the id. -/
theorem calm_of_member {s' : Standing} (hβ : (β k).EndsNobody)
    (hreg : ∀ r, r.id = id → b.standing.Registers r →
      s'.Registers r ∨ (b.standing.member r.number).retired)
    (hret : ∀ r, b.standing.Genuine r → (b.standing.member r.number).retired →
      (s'.member r.number).retired)
    (hm : ∀ r, r.id = id → b.standing.Registers r →
      s'.member r.number = b.standing.member r.number)
    (hclosed : b.standing.IsClosed link → s'.IsClosed link) :
    Calm b.standing β s' (update β k β₁) ends first link id :=
  .of_burden hβ hreg hret (fun r hid hr => congrArg _ (hm r hid hr))
    (fun r g hid hr hn hch => by rw [hm r hid hr]; exact ⟨hn, hch⟩) hclosed

/-- The generation of a member is advanced that is not registered under the id, or by a call that is
about to close it. -/
theorem calm_advance {r₀ : Ref} (hs : b.standing.Sound β) (hr₀ : b.standing.Genuine r₀)
    (hβ : (β k).EndsNobody)
    (h : (r₀.id = id → ¬b.standing.Registers r₀) ∨ ends k ∧ β₁ = .closing r₀) :
    Calm b.standing β (b.act (.advance r₀)).2.standing (update β k β₁) ends first link id := by
  rw [standing_advance]
  have hret : ∀ n, ((b.standing.change r₀.number fun m =>
      { m with generation := m.generation + 1 }).member n).retired =
        (b.standing.member n).retired := fun n =>
    Standing.retired_change_of_eq (by intro; rfl) _ _ _
  refine ⟨fun _ _ => .inl, fun r _ hr => by rw [hret]; exact hr, fun r hid hr => ?_,
    fun j r _ hj => .inl ((update_of_endsNobody hβ (.inl hj)).trans hj),
    fun j r _ hj => by rwa [update_of_endsNobody hβ hj], fun r g _ _ hn hch => .inl ⟨?_, ?_⟩,
    fun h => h⟩
  · by_cases e : r = r₀
    · subst e
      rcases h with h | ⟨hk, rfl⟩
      · exact absurd hr (h hid)
      · exact .inr ⟨k, hk, Function.update_self ..⟩
    · left
      rw [Standing.member_change_ne _ _ (number_ne hs hr hr₀ e)]
  · rw [hret]
    exact hn
  · rw [Standing.channel_change (by intro; rfl)]
    exact hch

/-- A member is struck off that had been retired. -/
theorem calm_strike {r₀ : Ref} (hret₀ : (b.standing.member r₀.number).retired)
    (hβ : β k = .retired r₀ ∨ β k = .closed r₀ false ∧ β₁ = .closed r₀ true) :
    Calm b.standing β (b.act (.strike r₀)).2.standing (update β k β₁) ends first link id := by
  rw [standing_strike]
  have hmember : ∀ n, (if b.standing.Registers r₀ then b.standing.unregister r₀.id
      else b.standing).member n = b.standing.member n := by
    intro n
    split <;> rfl
  refine ⟨fun r _ hr => ?_, fun r _ hr => by rw [hmember]; exact hr,
    fun r _ _ => .inl (by rw [hmember]), fun j r _ hj => .inl ?_, fun j r _ hj => ?_,
    fun r g _ _ hn hch => .inl (by rw [hmember]; exact ⟨hn, hch⟩), fun h => ?_⟩
  · split
    · rename_i hr₀
      by_cases hid : r.id = r₀.id
      · have e : r = r₀ := Option.some.inj (Eq.trans hr.symm (hid ▸ hr₀))
        rw [e]
        exact .inr hret₀
      · left
        rw [Standing.Registers, Standing.unregister, Table.find?_remove, if_neg hid]
        exact hr
    · exact .inl hr
  · refine (Function.update_of_ne ?_ _ _).trans hj
    rintro rfl
    rcases hβ with hβ | ⟨hβ, -⟩ <;> cases hβ.symm.trans hj
  · by_cases hjk : j = k
    · subst hjk
      rw [Function.update_self]
      rcases hβ with hβ | ⟨hβ, rfl⟩
      · rcases hj with hj | ⟨struck, hj⟩ <;> cases hβ.symm.trans hj
      · rcases hj with hj | ⟨struck, hj⟩
        · cases hβ.symm.trans hj
        · cases hβ.symm.trans hj
          exact .inr ⟨true, rfl⟩
    · rwa [Function.update_of_ne hjk]
  · split <;> exact h

/-- What harmless calls do is calm. -/
theorem calm_act {a : Act} {x : a.Answer} {β₀ : Burden} (hs : b.standing.Sound β)
    (hk : Harmless asked ends first id k β₀) (hβ : β k = β₀)
    (ha : β₀.Acts (asked k).licence a x β₁) (hx : (b.act a).1 = x)
    (hr : ∀ r ∈ a.member?, b.standing.Genuine r) :
    Calm b.standing β (b.act a).2.standing (update β k β₁) ends first link id := by
  have ht := hs.burdens k
  have henrol : ∀ {l p}, β₀.IsFor l p → (β k).EndsNobody →
      Calm b.standing β (b.standing.enrol p.1 p.2 l) (update β k β₁) ends first link id := by
    intro l p hf he
    refine calm_of_member he (fun r hid hreg => .inl ?_) (fun r hg hret => ?_)
      (fun r _ hreg => ?_) fun h => h
    · have hne : r.id ≠ p.2 := hid ▸ Ne.symm (hk.not_isFor hf)
      rw [Standing.Registers, Standing.enrol, Table.find?_put, if_neg hne]
      exact hreg
    · rw [Standing.member_enrol_old _ _ _ hg.1]
      exact hret
    · rw [Standing.member_enrol_old _ _ _ (hs.genuine hreg).1]
  have hfor : ∀ {l p}, β₀.IsFor l p → (β k).EndsNobody := by
    rintro l p (rfl | ⟨r, rfl⟩) <;> rw [hβ] <;> trivial
  cases ha with
  | lookUp _ | miss | roster =>
    rw [← hβ, Function.update_eq_self]
    exact .refl
  | hit => exact .burden (by rw [hβ]; trivial)
  | enrol hf | displace hf =>
    rw [standing_enrol]
    exact henrol hf (hfor hf)
  | strike =>
    rw [hβ] at ht
    exact calm_strike ht.2 (.inl hβ)
  | strikeClosed =>
    rw [hβ] at ht
    exact calm_strike ht.2 (.inr ⟨hβ, rfl⟩)
  | @dismiss kind i x hd =>
    have hne : id ≠ i := fun e => hk.dismisses (e ▸ hd)
    rcases b.standing_dismiss kind i with e | e <;> rw [e]
    · exact .burden (by rw [hβ]; trivial)
    · refine calm_of_member (by rw [hβ]; trivial) (fun r hid hreg => .inl ?_) (fun _ _ h => h)
        (fun _ _ _ => rfl) fun h => h
      rw [Standing.Registers, Standing.unregister, Table.find?_remove, if_neg (hid ▸ hne)]
      exact hreg
  | @announce _ l r g hf =>
    have hid : r.id ≠ id := by
      rcases hf with ⟨-, hf⟩ | hf
      · exact hk.not_isFor (p := (r.kind, r.id)) (.inl hf)
      · exact hk.not_isFor (p := (r.kind, r.id)) (.inr ⟨r, hf⟩)
    refine calm_advance hs (hr r rfl) ?_ (.inl fun e => absurd e hid)
    rcases hf with ⟨-, rfl⟩ | rfl <;> rw [hβ] <;> trivial
  | @advance r g hc =>
    refine calm_advance hs (hr r rfl) (by rw [hβ]; trivial) ?_
    by_cases hid : r.id = id
    · exact .inr ⟨(hk.closes r hc hid).1, rfl⟩
    · exact .inl fun e => absurd e hid
  | @depose r g =>
    rw [hβ] at ht
    exact calm_advance hs (hr r rfl) (by rw [hβ]; trivial) (.inl fun _ => ht.2)
  | discard | reject =>
    change Calm _ _ (b.hangUp _).standing _ _ _ _ _
    rw [standing_hangUp]
    exact .of_burden (by rw [hβ]; trivial) (fun _ _ => .inl) (fun _ _ h => h) (fun _ _ _ => rfl)
      (fun _ _ _ _ hn hch => ⟨hn, hch⟩) fun h => h.hangUp _

/-- A member is shut. If it is one of this id, it is closed by one of those that may. -/
theorem calm_shut {r₀ : Ref} (hs : b.standing.Sound β) (hr₀ : b.standing.Genuine r₀)
    (hh : b.standing.Held β)
    (h : β k = .closing r₀ ∧ β₁ = .closed r₀ false ∧ (r₀.id = id → ends k ∧ r₀.number < first) ∨
      (β k).EndsNobody ∧ ¬b.standing.Registers r₀) :
    Calm b.standing β (b.take r₀.number .shut).2.standing (update β k β₁) ends first link id := by
  have hlt : r₀.number < (b.standing.disconnect r₀.number).members.length := by simpa using hr₀.1
  have hne : ∀ {r : Ref}, r.number ≠ r₀.number →
      (b.take r₀.number .shut).2.standing.member r.number = b.standing.member r.number := by
    intro r hn
    rw [standing_shut, Standing.member_change_ne _ _ hn, Standing.member_disconnect_ne _ hn]
  have hself : ((b.take r₀.number .shut).2.standing.member r₀.number).retired ∧
      ((b.take r₀.number .shut).2.standing.member r₀.number).generation =
        (b.standing.member r₀.number).generation := by
    rw [standing_shut, Standing.member_change_self hlt, Standing.member_disconnect_self]
    exact ⟨rfl, rfl⟩
  have hclosed : ∀ {l}, b.standing.IsClosed l → (b.take r₀.number .shut).2.standing.IsClosed l := by
    intro l hl
    rw [standing_shut]
    exact hl.disconnect _
  constructor
  · intro r _ hreg
    left
    rw [standing_shut, Standing.Registers, Standing.registry_change, Standing.registry_disconnect]
    exact hreg
  · intro r _ hret
    by_cases hn : r.number = r₀.number
    · rw [hn]
      exact hself.1
    · rw [hne hn]
      exact hret
  · intro r _ _
    left
    by_cases hn : r.number = r₀.number
    · rw [hn]
      exact hself.2
    · rw [hne hn]
  · intro j r hj hβj
    by_cases hjk : j = k
    · subst hjk
      rcases h with ⟨hβ, -, -⟩ | ⟨hβ, -⟩
      · cases hβ.symm.trans hβj
        exact .inr hself.1
      · rw [hβj] at hβ
        exact hβ.elim
    · exact .inl ((Function.update_of_ne hjk ..).trans hβj)
  · intro j r hj hβj
    by_cases hjk : j = k
    · subst hjk
      rw [Function.update_self]
      rcases h with ⟨hβ, rfl, -⟩ | ⟨hβ, -⟩
      · rcases hβj with hβj | ⟨struck, hβj⟩ <;> cases hβ.symm.trans hβj
        exact .inr ⟨false, rfl⟩
      · rcases hβj with hβj | ⟨struck, hβj⟩ <;> rw [hβj] at hβ <;> exact hβ.elim
    · rwa [Function.update_of_ne hjk]
  · intro r g hid hreg hret hch
    by_cases e : r = r₀
    · subst e
      rcases h with ⟨-, rfl, hends⟩ | ⟨-, hnot⟩
      · obtain ⟨hk, hfirst⟩ := hends hid
        refine .inr ⟨hfirst, ?_, k, hk, false, Function.update_self ..⟩
        rw [standing_shut]
        exact Standing.isClosed_disconnect hh hch
      · exact absurd hreg hnot
    · rw [hne (number_ne hs hreg hr₀ e)]
      exact .inl ⟨hret, hch⟩
  · exact hclosed

/-- The turns of harmless calls are calm. -/
theorem calm_turn {r₀ : Ref} {t : Turn} {x : t.Answer} {β₀ : Burden} (hs : b.standing.Sound β)
    (hh : b.standing.Held β) (hsuits : (β k).Suits (asked k))
    (hk : Harmless asked ends first id k β₀) (hβ : β k = β₀)
    (ht : β₀.Turns (asked k).licence r₀ t x β₁) (hx : (b.take r₀.number t).1 = x)
    (hr₀ : b.standing.Genuine r₀) :
    Calm b.standing β (b.take r₀.number t).2.standing (update β k β₁) ends first link id := by
  have htrue := hs.burdens k
  cases ht with
  | taken =>
    obtain ⟨-, -, hst⟩ := take_offer_taken hx
    rw [hst]
    have hne : ∀ r : Ref, r.id = id → b.standing.Registers r → r.number ≠ r₀.number :=
      fun r hid hreg => number_ne hs hreg hr₀ fun e => hk.not_announced (e ▸ hid)
    refine calm_of_member (by rw [hβ]; trivial) (fun r _ hreg => .inl ?_) (fun r _ hret => ?_)
      (fun r hid hreg => ?_) fun h => h.disconnect _
    · rw [Standing.Registers, Standing.registry_change, Standing.registry_disconnect]
      exact hreg
    · rw [Standing.retired_change_of_eq (by intro; rfl), Standing.retired_disconnect]
      exact hret
    · rw [Standing.member_change_ne _ _ (hne r hid hreg),
        Standing.member_disconnect_ne _ (hne r hid hreg)]
  | superseded =>
    obtain ⟨-, -, hst⟩ := take_offer_superseded hx
    rw [hst, standing_hangUp]
    exact .of_burden (by rw [hβ]; trivial) (fun _ _ => .inl) (fun _ _ h => h) (fun _ _ _ => rfl)
      (fun _ _ _ _ hn hch => ⟨hn, hch⟩) fun h => h.hangUp _
  | handedBack =>
    obtain ⟨-, hst⟩ := take_offer_handedBack hx
    rw [hst]
    exact .burden (by rw [hβ]; trivial)
  | shut =>
    exact calm_shut hs hr₀ hh (.inl ⟨hβ, rfl, hk.closes r₀ (hsuits.closing r₀ hβ)⟩)
  | depose =>
    rw [hβ] at htrue
    exact calm_shut hs hr₀ hh (.inr ⟨by rw [hβ]; trivial, htrue.2⟩)
  | retire =>
    obtain ⟨hvacant, hst⟩ := take_retire_true hx
    rw [hst]
    refine .of_burden (by rw [hβ]; trivial) (fun _ _ => .inl) (fun r _ hret => ?_)
      (fun r _ _ => ?_) (fun r g _ _ hret hch => ?_) fun h => h
    · exact Standing.retired_change ⟨fun _ => rfl, fun _ => rfl, fun _ _ => rfl⟩ hret
    · rw [Standing.member_change]
      split
      · rename_i e
        rw [e.1]
      · rfl
    · -- whoever has the connection is not retired for want of one
      have hne : r.number ≠ r₀.number := by
        intro e
        rw [e, channel_standing, hvacant] at hch
        cases hch
      rw [Standing.member_change_ne _ _ hne]
      exact ⟨hret, hch⟩
  | keep =>
    obtain ⟨-, hst⟩ := take_retire_false hx
    rw [hst]
    exact .burden (by rw [hβ]; trivial)
  | look =>
    rw [← hβ, Function.update_eq_self]
    exact .refl

/-- A member loses its connection. If that is the one in question, it has failed. -/
theorem calm_disconnect (n : Nat)
    (h : ∀ r g, r.number = n → b.standing.Registers r → (b.member n).channel ≠ some ⟨link, g⟩) :
    Calm b.standing β (b.standing.disconnect n) β ends first link id where
  registers r _ hreg := by
    left
    rw [Standing.Registers, Standing.registry_disconnect]
    exact hreg
  retired r _ hret := by
    rw [Standing.retired_disconnect]
    exact hret
  generation r _ _ := by
    left
    by_cases hn : r.number = n
    · rw [hn, Standing.member_disconnect_self]
    · rw [Standing.member_disconnect_ne _ hn]
  closing _ _ _ := .inl
  closes _ _ _ h := h
  live r g _ hreg hret hch := by
    by_cases hn : r.number = n
    · refine absurd ?_ (h r g hn hreg)
      rw [← hn, ← channel_standing]
      exact hch
    · rw [Standing.member_disconnect_ne _ hn]
      exact .inl ⟨hret, hch⟩
  closed h := h.disconnect n

end Broker

end WorkerBroker
