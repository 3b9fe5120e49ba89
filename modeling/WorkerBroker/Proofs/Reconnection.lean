import WorkerBroker.Proofs.Calm
/-!
# Workers that reconnect

The registration of a worker that has said who it is carries its connection to a member, and this
is followed to the end of the run (`Broker.Run.placed`): whatever else happens is calm, as long as
nobody else has to do with the id of the worker, and the registration itself goes on step by step
(`Placed.step`). The registration looks up the id and makes a member if there is none of the right
kind; otherwise it announces the connection to the member and offers it. A member that was retired
meanwhile hands the connection back, and a new member is made in its place.
-/

namespace WorkerBroker

open Function (update)

namespace Broker

/-- A registration has its turn on a member that is not retired, and offers the connection. -/
def OffersTo (b : Broker Result) (c link : Nat) (r : Ref) (m : Move Result) : Prop :=
  (∃ g, b.Enters c r (.offer g link) m) ∧ (b.member r.number).retired = false

end Broker

/-- Whether a registration has offered its connection to a member that was not retired. -/
def WasOffered (past : List (Deed Result)) (c link : Nat) (r : Ref) : Prop :=
  ∃ d ∈ past, d.before.OffersTo c link r d.move

theorem wasOffered_snoc {past : List (Deed Result)} {d : Deed Result} {c link : Nat} {r : Ref} :
    WasOffered (past ++ [d]) c link r ↔
      WasOffered past c link r ∨ d.before.OffersTo c link r d.move := by
  simp only [WasOffered, List.mem_append, List.mem_singleton, or_and_right, exists_or,
    exists_eq_left]

/-- The connection is on its way to a member, or with one. -/
def Placed (s : Standing) (β : Nat → Burden) (ends : Nat → Prop) (first : Nat)
    (offered : Ref → Prop) (c link : Nat) (who : Identity) : Prop :=
  Pending s β ends c link who ∧ (∀ r, ¬offered r) ∨ Settled s β ends first offered link who

theorem Pending.link? {s : Standing} {β : Nat → Burden} {ends : Nat → Prop} {c link : Nat}
    {who : Identity} (h : Pending s β ends c link who) :
    (β c).link? = some link := by
  cases h with
  | inHand h => rw [h]; rfl
  | found r h _ => rw [h]; rfl
  | announced r g h _ _ => rw [h]; rfl

theorem Placed.calm {s s' : Standing} {β β' : Nat → Burden} {ends : Nat → Prop} {first c link : Nat}
    {offered : Ref → Prop} {who : Identity} (h : Placed s β ends first offered c link who)
    (hs : s.Sound β) (hc : Calm s β s' β' ends first link who.2)
    (hβ : Pending s β ends c link who → β' c = β c) :
    Placed s' β' ends first offered c link who :=
  h.imp (fun ⟨hp, ho⟩ => ⟨hp.calm hs hc (hβ hp), ho⟩) fun h => h.calm hc

namespace Broker

variable {asked : Nat → Operation} {b b' : Broker Result} {m : Move Result}
  {β β' : Nat → Burden} {ends : Nat → Prop} {first c link : Nat} {who : Identity} {β₁ : Burden}
  {offered : Ref → Prop}

/-- A new member is made for the connection. -/
theorem settled_enrol (ho : ∀ r, ¬offered r) (hfirst : first ≤ b.members.length) :
    Settled (b.standing.enrol who.1 who.2 link) (update β c β₁) ends first offered link who := by
  have hm : (b.standing.enrol who.1 who.2 link).member b.members.length =
      .fresh who.1 who.2 link := by
    have := Standing.member_enrol_new who.1 who.2 link b.standing
    rwa [length_standing] at this
  refine .kept ⟨b.members.length, who.1, who.2⟩ (.inl ⟨hfirst, ho⟩) ?_ rfl ?_ ⟨0, ?_⟩
  · rw [Standing.Registers, Standing.enrol, Table.find?_put, if_pos rfl, length_standing]
  · rw [hm]
    rfl
  · rw [hm]
    rfl

/-- A registration does its next act while the connection is in hand. -/
theorem pending_act {a : Act} {x : a.Answer} {β₀ : Burden}
    (h : Pending b.standing β ends c link who) (hs : b.standing.Sound β)
    (hc : (asked c).licence.leaves = false) (ho : ∀ r, ¬offered r)
    (hfirst : first ≤ b.members.length) (hβ : β c = β₀)
    (ha : β₀.Acts (asked c).licence a x β₁) (hx : (b.act a).1 = x)
    (hr : ∀ r ∈ a.member?, b.standing.Genuine r) :
    Placed (b.act a).2.standing (update β c β₁) ends first offered c link who := by
  have hl := h.link?
  rw [hβ] at hl
  have hfor : ∀ {l p}, β₀.IsFor l p → l = link ∧ p = who := by
    intro l p hf
    cases h with
    | inHand h =>
      rcases hf with rfl | ⟨r, rfl⟩ <;> cases hβ.symm.trans h
      exact ⟨rfl, rfl⟩
    | found r h _ =>
      rcases hf with rfl | ⟨r, rfl⟩ <;> cases hβ.symm.trans h
      exact ⟨rfl, rfl⟩
    | announced r g h _ _ => rcases hf with rfl | ⟨r, rfl⟩ <;> cases hβ.symm.trans h
  cases ha with
  | lookUp _ | miss | roster =>
    rw [← hβ, Function.update_eq_self]
    exact .inl ⟨h, ho⟩
  | @hit l p r =>
    obtain ⟨rfl, rfl⟩ := hfor (.inl rfl)
    exact .inl ⟨.found r (Function.update_self ..) (.inl (hs.registers hx)), ho⟩
  | enrol hf | displace hf =>
    obtain ⟨rfl, rfl⟩ := hfor hf
    rw [standing_enrol]
    exact .inr (settled_enrol ho hfirst)
  | @announce _ l r g hf =>
    rcases hf with ⟨hleaves, -⟩ | hf
    · rw [hc] at hleaves
      cases hleaves
    obtain ⟨rfl, rfl⟩ := hfor (p := (r.kind, r.id)) (.inr ⟨r, hf⟩)
    have hlt := (hr r rfl).1
    rw [standing_advance]
    refine .inl ⟨.announced r g (Function.update_self ..) rfl ?_, ho⟩
    have hgen : ((b.standing.change r.number fun m =>
        { m with generation := m.generation + 1 }).member r.number).generation = g := by
      rw [Standing.member_change_self hlt, ← hx]
      exact congrArg (· + 1) (generation_standing b r.number)
    have hret : ((b.standing.change r.number fun m =>
        { m with generation := m.generation + 1 }).member r.number).retired =
          (b.standing.member r.number).retired :=
      Standing.retired_change_of_eq (by intro; rfl) _ _ _
    cases h with
    | inHand h => cases (hβ.trans hf).symm.trans h
    | found r' h hr' =>
      cases (hβ.trans hf).symm.trans h
      rcases hr' with hr' | hr'
      · exact .inr ⟨hr', .inl hgen⟩
      · exact .inl (hret.trans hr')
    | announced r' g' h _ _ => cases (hβ.trans hf).symm.trans h
  | discard =>
    cases h with
    | inHand h => cases hβ.symm.trans h
    | found r h _ => cases hβ.symm.trans h
    | announced r g h _ _ => cases hβ.symm.trans h
  | reject =>
    cases h with
    | inHand h => cases hβ.symm.trans h
    | found r h _ => cases hβ.symm.trans h
    | announced r g h _ _ => cases hβ.symm.trans h
  | strike | strikeClosed | dismiss _ | depose | advance _ => cases hl

/-- A registration has its turn while the connection is in hand. -/
theorem pending_turn {r₀ : Ref} {t : Turn} {x : t.Answer} {β₀ : Burden}
    (h : Pending b.standing β ends c link who) (hh : b.standing.Held β)
    (ho : ∀ r, offered r → r = r₀ ∧ ∃ g, t = .offer g link)
    (ho' : ∀ g, t = .offer g link → (b.member r₀.number).retired = false → offered r₀)
    (hends : ∀ k, ends k → k ≠ c)
    (hret₀ : ∀ r, offered r → (b.member r₀.number).retired = false) (hβ : β c = β₀)
    (ht : β₀.Turns (asked c).licence r₀ t x β₁) (hx : (b.take r₀.number t).1 = x)
    (hr₀ : b.standing.Genuine r₀) :
    Placed (b.take r₀.number t).2.standing (update β c β₁) ends first offered c link who := by
  have hl := h.link?
  rw [hβ] at hl
  cases ht with
  | @taken r g l =>
    obtain ⟨hret, hgen, hst⟩ := take_offer_taken hx
    obtain rfl : l = link := Option.some.inj hl
    have hoff := ho' g rfl hret
    rw [hst]
    cases h with
    | inHand h => cases hβ.symm.trans h
    | found r h _ => cases hβ.symm.trans h
    | announced r' g' h hwho hr =>
      cases hβ.symm.trans h
      have hlt : r₀.number < (b.standing.disconnect r₀.number).members.length := by
        simpa using hr₀.1
      have hreg : b.standing.Registers r₀ := by
        rcases hr with hr | hr
        · rw [retired_standing, hret] at hr
          cases hr
        · exact hr.1
      refine .inr (.kept r₀ (.inr ⟨hoff, fun r' h => (ho r' h).1⟩) ?_ hwho ?_ ⟨g, ?_⟩)
      · rw [Standing.Registers, Standing.registry_change, Standing.registry_disconnect]
        exact hreg
      · rw [Standing.retired_change_of_eq (by intro; rfl), Standing.retired_disconnect,
          retired_standing, hret]
      · rw [Standing.member_change_self hlt]
  | @superseded r g l =>
    obtain ⟨hret, hgen, hst⟩ := take_offer_superseded hx
    obtain rfl : l = link := Option.some.inj hl
    have hoff := ho' g rfl hret
    have hopen := hh.hand c l h.link?
    rw [hst, standing_hangUp]
    cases h with
    | inHand h => cases hβ.symm.trans h
    | found r h _ => cases hβ.symm.trans h
    | announced r' g' h hwho hr =>
      cases hβ.symm.trans h
      -- only a member that is about to be closed has another generation by now
      rcases hr with hr | ⟨-, hr | ⟨k, hk, hβk⟩⟩
      · rw [retired_standing, hret] at hr
        cases hr
      · rw [generation_standing] at hr
        exact absurd hr hgen
      · refine .inr (.lost r₀ hoff (Standing.isClosed_hangUp hopen) ⟨k, hk, .inl ?_⟩)
        rw [Function.update_of_ne (hends k hk), hβk]
  | @handedBack r g l =>
    obtain ⟨hret, hst⟩ := take_offer_handedBack hx
    obtain rfl : l = link := Option.some.inj hl
    have hnone : ∀ r', ¬offered r' := by
      intro r' hr'
      rw [hret₀ r' hr'] at hret
      cases hret
    rw [hst]
    cases h with
    | inHand h => cases hβ.symm.trans h
    | found r h _ => cases hβ.symm.trans h
    | announced r' g' h hwho hr =>
      cases hβ.symm.trans h
      refine .inl ⟨.inHand ?_, hnone⟩
      rw [Function.update_self, hwho]
  | look =>
    rw [← hβ, Function.update_eq_self]
    refine .inl ⟨h, fun r' hr' => ?_⟩
    obtain ⟨-, g, hg⟩ := ho r' hr'
    cases hg
  | shut | depose | retire | keep => cases hl

theorem isInUse_of_registers {r : Ref} (h : b.standing.Registers r) : b.isInUse r.number := by
  simp only [isInUse, Bool.or_eq_true, List.any_eq_true]
  exact .inl (.inl ⟨_, Table.mem_of_find? h, beq_self_eq_true _⟩)

/-- What calls may have to do with the id of a worker while its connection is being placed. -/
structure Undisturbed (asked : Nat → Operation) (b : Broker Result) (m : Move Result)
    (β : Nat → Burden) (ends : Nat → Prop) (first c link : Nat) (id : UInt32) : Prop where
  registers : asked c = .registerPrimary link ∨ asked c = .registerSecondary link
  older : first ≤ b.members.length
  others : ∀ k, k ≠ c → b.IsActive k → Harmless asked ends first id k (β k)
  enders : ∀ k, ends k → k ≠ c ∧ (asked k).licence.leaves = false
  answers : ∀ t s, Deed.event? ⟨b, m⟩ ≠ some (.ended t link (.error s))

namespace Undisturbed

variable {id : UInt32}

theorem licence (h : Undisturbed asked b m β ends first c link id) :
    (asked c).licence.closes = none ∧ (asked c).licence.dismisses = none ∧
      (asked c).licence.leaves = false ∧ (asked c).brings = some link := by
  rcases h.registers with e | e <;> rw [e] <;> exact ⟨rfl, rfl, rfl, rfl⟩

/-- The registration itself does no harm once it has nothing in hand. -/
theorem self (h : Undisturbed asked b m β ends first c link id) (hl : (β c).link? = none) :
    Harmless asked ends first id c (β c) where
  touches ht := Burden.displaced_of_touches ht hl
  closes r hr := by
    rw [h.licence.1] at hr
    cases hr
  dismisses := by
    rw [h.licence.2.1]
    exact nofun

end Undisturbed

end Broker

section

open Broker

variable {asked : Nat → Operation} {b b' : Broker Result} {m : Move Result}
  {β β' : Nat → Burden} {ends : Nat → Prop} {first c link : Nat} {who : Identity}
  {offered : Ref → Prop}

/-- A connection that is settled is not in hand any more. -/
theorem Settled.link? (h : Settled b.standing β ends first offered link who)
    (hc : Course asked b β) (hbr : (asked c).brings = some link) : (β c).link? = none := by
  rcases hl : (β c).link? with _ | l
  · rfl
  · obtain rfl := Option.some.inj (((hc.calls.suits c).link l hl).symm.trans hbr)
    cases h with
    | kept r _ _ _ _ hch =>
      obtain ⟨g, hch⟩ := hch
      exact (hc.held.apart _ _ _ hch hl).elim
    | lost r _ hclosed _ => cases hclosed.symm.trans (hc.held.hand c l hl)

/-- The connection is placed, whatever happens. -/
theorem Placed.step {past : List (Deed Result)}
    (h : Placed b.standing β ends first (WasOffered past c link) c link who)
    (hu : Undisturbed asked b m β ends first c link who.2) (hm : Stride asked b m β b' β') :
    Placed b'.standing β' ends first (WasOffered (past ++ [⟨b, m⟩]) c link) c link who := by
  obtain ⟨hcourse, -, hmove, -⟩ := hm
  have hs := hcourse.sound
  have hsame : (∀ r g, ¬b.Enters c r (.offer g link) m) →
      WasOffered (past ++ [⟨b, m⟩]) c link = WasOffered past c link := by
    intro hn
    funext r
    exact propext (wasOffered_snoc.trans (or_iff_left fun ⟨⟨g, hg⟩, _⟩ => hn r g hg))
  have hquiet : (∀ n, m ≠ .serve n) →
      WasOffered (past ++ [⟨b, m⟩]) c link = WasOffered past c link :=
    fun hn => hsame fun r g h => hn _ h.1
  generalize b'.standing = s' at hmove
  cases hmove with
  | still hplain =>
    rw [hsame fun r g => hplain.enters c r _]
    exact h
  | accepted hmv =>
    rw [hquiet fun n e => by cases hmv.symm.trans e]
    exact h.calm hs .accept fun _ => rfl
  | begun op _ hmv _ _ =>
    rw [hquiet fun n e => by cases hmv.symm.trans e]
    have hidle := hcourse.calls.idle _ (Nat.le_refl _)
    refine h.calm hs (.burden (by rw [hidle]; trivial)) fun hp => Function.update_of_ne ?_ _ _
    rintro rfl
    have hl := hp.link?
    rw [hidle] at hl
    cases hl
  | finished k hmv hleaves =>
    rw [hquiet fun n e => by cases hmv.1.symm.trans e]
    have hne : ∀ {j}, (asked j).licence.leaves = false → j ≠ k := by
      rintro j hj rfl
      rw [hj] at hleaves
      cases hleaves
    exact h.calm hs (.finished fun j hj => hne (hu.enders j hj).2)
      fun _ => Function.update_of_ne (hne hu.licence.2.2.1) _ _
  | acted k a β₁ hmv hact hr ha =>
    rw [hquiet fun n e => by cases hmv.1.symm.trans e]
    by_cases hk : k = c
    · subst hk
      rcases h with ⟨hp, ho⟩ | h
      · exact pending_act hp hs hu.licence.2.2.1 ho hu.older rfl ha rfl hr
      · refine .inr (h.calm (calm_act hs (hu.self ?_) rfl ha rfl hr))
        exact h.link? hcourse hu.licence.2.2.2
    · exact h.calm hs (calm_act hs (hu.others k hk hact) rfl ha rfl hr)
        fun _ => Function.update_of_ne (Ne.symm hk) _ _
  | turned k r turn β₁ hmv hact hr ht =>
    have hsuits := hcourse.calls.suits k
    by_cases hk : k = c
    · subst hk
      rcases h with ⟨hp, ho⟩ | h
      · have hoff : ∀ r', WasOffered (past ++ [⟨b, m⟩]) k link r' → b.OffersTo k link r' m :=
          fun r' h => (wasOffered_snoc.1 h).resolve_left (ho r')
        refine pending_turn hp hcourse.held (fun r' h => ?_) (fun g hg hret => ?_)
          (fun j hj => (hu.enders j hj).1) (fun r' h => ?_) rfl ht rfl hr
        · obtain ⟨⟨g, hg⟩, -⟩ := hoff r' h
          obtain ⟨-, e, e'⟩ := hg.ext hmv
          exact ⟨e, g, e'.symm⟩
        · exact wasOffered_snoc.2 (.inr ⟨⟨g, hg ▸ hmv⟩, hret⟩)
        · obtain ⟨⟨g, hg⟩, hret⟩ := hoff r' h
          obtain ⟨-, rfl, -⟩ := hg.ext hmv
          exact hret
      · have hl := h.link? hcourse hu.licence.2.2.2
        have hno : ∀ r' g, ¬b.Enters k r' (.offer g link) m := by
          intro r' g h
          obtain ⟨-, rfl, rfl⟩ := h.ext hmv
          cases ht.link?.symm.trans hl
        rw [hsame hno]
        exact .inr (h.calm (calm_turn hs hcourse.held hsuits (hu.self hl) rfl ht rfl hr))
    · rw [hsame fun r' g h => hk (h.ext hmv).1.symm]
      exact h.calm hs (calm_turn hs hcourse.held hsuits (hu.others k hk hact) rfl ht rfl hr)
        fun _ => Function.update_of_ne (Ne.symm hk) _ _
  | greeted k l o hmv hβ =>
    rw [hquiet fun n e => by subst e; exact hmv]
    refine h.calm hs (.burden (by rw [hβ]; trivial)) fun hp => Function.update_of_ne ?_ _ _
    rintro rfl
    cases hp with
    | inHand e | found _ e _ | announced _ _ e _ _ => cases hβ.symm.trans e
  | failed n ch t s he hch =>
    rw [hsame fun r g h => by rw [h.event?] at he; cases he]
    refine h.calm hs (calm_disconnect n fun r g _ _ e => hu.answers t s ?_) fun _ => rfl
    rw [hch] at e
    cases e
    exact he
  | released n hmv hn =>
    rw [hquiet fun n e => by cases hmv.symm.trans e]
    refine h.calm hs (calm_disconnect n fun r g e hreg _ => ?_) fun _ => rfl
    rw [← e, isInUse_of_registers hreg] at hn
    cases hn

/-! ## Runs -/

/-- What shuts a member has to do with its id. -/
theorem Operation.concerns_of_closes {op : Operation} {r : Ref} (h : op.licence.closes = some r) :
    op.Concerns r.id := by
  cases op with
  | exit r' | close r' =>
    cases h
    rfl
  | _ => cases h

/-- What takes a member out of the registry by its id has to do with the id. -/
theorem Operation.concerns_of_dismisses {op : Operation} {id : UInt32}
    (h : op.licence.dismisses = some id) : op.Concerns id := by
  cases op with
  | terminate kind id' =>
    cases h
    rfl
  | _ => cases h

/-- Exits of members are harmless as far as they are among those that may end one. -/
theorem harmless_exit {k : Nat} {id : UInt32} {r : Ref} (hk : asked k = .exit r)
    (hs : (β k).Suits (asked k)) (he : ends k) (hr : r.number < first) :
    Harmless asked ends first id k (β k) where
  touches ht := by
    refine Burden.displaced_of_touches ht ?_
    rcases hl : (β k).link? with _ | l
    · rfl
    · have := hs.link l hl
      rw [hk] at this
      cases this
  closes r' hr' _ := by
    rw [hk] at hr'
    cases hr'
    exact ⟨he, hr⟩
  dismisses := by
    rw [hk]
    exact nofun

/-- Calls that have nothing to do with an id are harmless. -/
theorem harmless_of_not_engaged {past : List (Deed Result)} {k : Nat} {id : UInt32}
    (h : ¬Engaged asked past id k) (ha : Attested asked past β) :
    Harmless asked ends first id k (β k) where
  touches ht := absurd (ha k id ht) h
  closes _ hr hid := absurd (.inl (hid ▸ Operation.concerns_of_closes hr)) h
  dismisses hd := h (.inl (Operation.concerns_of_dismisses hd))

/-- A worker has said who it is, and nobody else has to do with its id from then on, except for
exits of members that were there already. Its connection does not fail. Then it is on its way to a
member, or has been placed with one. -/
theorem Broker.Run.placed (ends : Nat → Prop) {timeout : Nat} {past₁ past₂ : List (Deed Result)}
    {b₁ b : Broker Result}
    (hr : Run (fun _ => Operation.Starts asked) (fresh timeout) (past₁ ++ ⟨b₁, m⟩ :: past₂) b)
    (hid : b₁.Identifies asked c link who m)
    (hends : ∀ k, ends k → ∃ r, asked k = .exit r ∧ r.number < b₁.members.length)
    (halone : ∀ d ∈ past₂, ∀ k, d.before.IsActive k → k ≠ c →
      Engaged asked (past₁ ++ ⟨b₁, m⟩ :: past₂) who.2 k → ends k)
    (hfail : ∀ t s, .ended t link (.error s) ∉ log past₂) :
    ∃ β, Course asked b β ∧
      Placed b.standing β ends b₁.members.length (WasOffered past₂ c link) c link who := by
  rw [← List.singleton_append, ← List.append_assoc] at hr halone
  obtain ⟨b₂, hr₁, hr₂⟩ := hr.of_append
  obtain ⟨hr₁, ha, hm⟩ := hr₁.of_snoc
  obtain ⟨β₁, hc₁, hatt₁⟩ := hr₁.course (P := fun past _ β => Attested asked past β)
    (fun _ _ _ h => h) (Course.fresh asked timeout) (fun _ _ h => h.elim)
    fun _ _ _ _ _ _ h _ hm => h.step hm
  obtain ⟨β₂, hm₂⟩ := hc₁.move ha hm
  obtain ⟨hβ₂, hasked⟩ := hid.effect hc₁ hm₂.effect
  have hrun := hr₂.course (P := fun past b β => past ⊆ past₂ →
      Attested asked (past₁ ++ [⟨b₁, m⟩] ++ past) β ∧ b₁.members.length ≤ b.members.length ∧
        Placed b.standing β ends b₁.members.length (WasOffered past c link) c link who)
    (fun _ _ _ h => h) hm₂.after (fun _ => ?_) (fun past b m' β b' β' ih _ hm' hsub => ?_)
  · obtain ⟨β, hc, h⟩ := hrun
    exact ⟨β, hc, (h fun _ => id).2.2⟩
  · refine ⟨by simpa using hatt₁.step hm₂, ?_, .inl ⟨.inHand hβ₂, ?_⟩⟩
    · simpa using hm₂.effect.length_le
    · rintro r ⟨d, hd, -⟩
      cases hd
  · have hd : (⟨b, m'⟩ : Deed Result) ∈ past₂ := hsub (List.mem_append_right _ List.mem_cons_self)
    have hpast : past ⊆ past₂ := fun d hd => hsub (List.mem_append_left _ hd)
    obtain ⟨hatt, hfirst, hplaced⟩ := ih hpast
    refine ⟨by simpa using hatt.step hm', ?_, hplaced.step ?_ hm'⟩
    · exact Nat.le_trans hfirst (by simpa using hm'.effect.length_le)
    · refine ⟨hasked, hfirst, fun k hk hact => ?_, fun k hk => ?_, fun t s he => ?_⟩
      · by_cases he : ends k
        · obtain ⟨r, hr, hlt⟩ := hends k he
          exact harmless_exit hr (hm'.before.calls.suits k) he hlt
        · refine harmless_of_not_engaged (fun h => he (halone _ hd k hact hk (h.mono ?_))) hatt
          exact List.append_subset.2 ⟨List.subset_append_left .., fun d hd =>
          List.mem_append_right _ (hpast hd)⟩
      · obtain ⟨r, hr, -⟩ := hends k hk
        refine ⟨?_, by rw [hr]; rfl⟩
        rintro rfl
        rcases hasked with e | e <;> cases e.symm.trans hr
      · exact hfail t s (List.mem_filterMap.2 ⟨_, hd, he⟩)

/-- A member of that kind is registered under that id, and it has that connection. -/
def Broker.Serves (b : Broker Result) (who : Identity) (link : Nat) (r : Ref) : Prop :=
  Table.find? who.2 b.registry = some r ∧ r.kind = who.1 ∧ (b.member r.number).retired = false ∧
    ∃ g, (b.member r.number).channel = some ⟨link, g⟩

/-- What is left of a registration that is over. -/
theorem Placed.settled {x : Result} (h : Placed b.standing β ends first offered c link who)
    (hc : b.CallsOk asked β) (hx : b.phase? c = some (.finished x)) :
    Settled b.standing β ends first offered link who := by
  refine h.resolve_left fun hp => ?_
  cases hp.1.link?.symm.trans (hc.link?_of_finished hx)

/-- A worker that has said who it is gets what it connected for. Whatever was registered under its
id, whatever sweeps are going on and whatever is sent to members meanwhile: if nobody else
registers, ends or drops a worker of the id and the connection does not fail, then once the
registration is over a member of the worker's kind is registered under the id, is not retired and
has the connection. -/
theorem Broker.serves_of_identifies {timeout : Nat} {past₁ past₂ : List (Deed Result)}
    {b₁ b : Broker Result} {x : Result}
    (hr : Run (fun _ => Operation.Starts asked) (fresh timeout) (past₁ ++ ⟨b₁, m⟩ :: past₂) b)
    (hid : b₁.Identifies asked c link who m)
    (halone : ∀ d ∈ past₂, ∀ k, d.before.IsActive k → k ≠ c →
      ¬Engaged asked (past₁ ++ ⟨b₁, m⟩ :: past₂) who.2 k)
    (hfail : ∀ t s, .ended t link (.error s) ∉ log past₂)
    (hx : b.phase? c = some (.finished x)) : ∃ r, b.Serves who link r := by
  obtain ⟨β, hc, h⟩ := hr.placed (fun _ => False) hid (fun _ => False.elim) halone hfail
  cases h.settled hc.calls hx with
  | kept r _ hreg hwho hret hch =>
    subst hwho
    exact ⟨r, hreg, rfl, by rwa [← retired_standing], by simpa only [← channel_standing] using hch⟩
  | lost r _ _ hk =>
    obtain ⟨k, hk, -⟩ := hk
    exact hk.elim

end

/-- A worker is registered, all workers are asked for their status, and it connects again. -/
def nfvReturns : Nat → Operation
  | 0 => .registerSecondary 0
  | 2 => .registerSecondary 1
  | _ => .listing

/-- The sweep has found the worker dead. It retires the member after the registration has looked it
up, and strikes it off after a new member has been made. -/
def nfvReturns.script : List Cue :=
  nfvConnects ++
    ([.call, .move (.run 1), .move (.run 1), .move (.serve 0), .move (.signal 0 .ended),
      .move (.receive 1 0),
      -- the worker connects again, says who it is, and is found
      .move .accept, .call, .move (.run 2), .move (.signal 1 (.bytes nfvAnswer)), .move (.hear 2),
      .move (.run 2),
      -- the member is retired, and hands the connection back
      .move (.run 1), .move (.serve 0), .move (.run 2), .move (.run 2), .move (.serve 0),
      -- a new member displaces it
      .move (.run 2), .move (.run 2), .move (.run 2), .move (.serve 0), .move (.run 2),
      .move (.run 1), .move (.run 1), .move (.run 1)] : List Cue)

theorem Broker.serves_when_retired_meanwhile :
    ∃ past b, Run (fun _ => Operation.Starts nfvReturns) (fresh 5) past b ∧
      (b.member 0).retired = true ∧ ∃ r, b.Serves (.nfv, 1) 1 r := by
  obtain ⟨past, b, hr, harrives, hret, hover⟩ :
      ∃ past b, Run (fun _ => Operation.Starts nfvReturns) (fresh 5) past b ∧
        Arrives nfvReturns (fun _ => False) 18 2 1 (.nfv, 1) past ∧ (b.member 0).retired = true ∧
        (b.result? 2).isSome :=
    exists_run_of_play (fun _ _ => True) nfvReturns.script (fun _ _ _ h _ => h) (by decide +kernel)
  obtain ⟨past₁, b₁, m, past₂, rfl, -, hid, halone, hfail⟩ := harrives.split
  obtain ⟨x, hx⟩ := Option.isSome_iff_exists.1 hover
  exact ⟨_, b, hr, hret, serves_of_identifies hr hid halone hfail (phase?_of_result? hx)⟩

end WorkerBroker
