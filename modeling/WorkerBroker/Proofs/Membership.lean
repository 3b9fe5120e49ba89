import WorkerBroker.Proofs.Course
import WorkerBroker.Proofs.Script
/-!
# Members and the registry

A member takes connections as long as it is not retired, and it is found as long as it is
registered. The two are changed at different times: a member that is displaced is shut only later,
and one that is retired or shut is struck off only later. In between the registry and the members
disagree, and it is always the burden of a call to see to that (`Standing.Accounted`). So once every
call is over there is nothing to see to any more: `Broker.registered_iff_usable`.
-/

namespace WorkerBroker

open Function (update)

/-- A burden that has to do with a member that the registry and the members disagree about. -/
def Burden.IsDebt : Burden → Prop
  | .displaced _ | .retired _ | .closed _ false => True
  | _ => False

namespace Standing

/-- Whatever is registered though it is retired, or neither, is the burden of a call. -/
structure Accounted (s : Standing) (β : Nat → Burden) : Prop where
  retired : ∀ r, s.Registers r → (s.member r.number).retired →
    ∃ c, β c = .retired r ∨ β c = .closed r false
  missing : ∀ r, s.Genuine r → ¬s.Registers r → (s.member r.number).retired = false →
    ∃ c, β c = .displaced r

namespace Accounted

variable {s s' : Standing} {β β' : Nat → Burden}

/-- Members are registered and retired as before, and no debt has been dropped. -/
theorem congr (h : s.Accounted β) (hreg : ∀ r, s'.Registers r ↔ s.Registers r)
    (hgen : ∀ r, s'.Genuine r → s.Genuine r)
    (hret : ∀ n, (s'.member n).retired = (s.member n).retired)
    (hβ : ∀ c, (β c).IsDebt → β' c = β c) : s'.Accounted β' where
  retired r hr hm := by
    obtain ⟨c, hc | hc⟩ := h.retired r ((hreg r).1 hr) (hret _ ▸ hm)
    · exact ⟨c, .inl ((hβ c (by rw [hc]; trivial)).trans hc)⟩
    · exact ⟨c, .inr ((hβ c (by rw [hc]; trivial)).trans hc)⟩
  missing r hg hr hm := by
    obtain ⟨c, hc⟩ := h.missing r (hgen r hg) (fun e => hr ((hreg r).2 e)) (hret _ ▸ hm)
    exact ⟨c, (hβ c (by rw [hc]; trivial)).trans hc⟩

/-- One call has another burden, and its old one was no debt. -/
theorem update_of_not_debt {c k : Nat} {β₁ : Burden} (hc : ¬(β c).IsDebt) (hk : (β k).IsDebt) :
    update β c β₁ k = β k := by
  refine Function.update_of_ne ?_ _ _
  rintro rfl
  exact hc hk

theorem burden {c : Nat} {β₁ : Burden} (h : s.Accounted β) (hc : ¬(β c).IsDebt) :
    s.Accounted (update β c β₁) :=
  h.congr (fun _ => Iff.rfl) (fun _ => id) (fun _ => rfl) fun _ hk => update_of_not_debt hc hk

/-- A member is retired. If it is registered, a call will strike it off. -/
theorem retire {r : Ref} (h : s.Accounted β) (hr : s.Genuine r)
    (hreg : ∀ r, s'.Registers r ↔ s.Registers r) (hgen : ∀ r, s'.Genuine r → s.Genuine r)
    (hret : ∀ k, k ≠ r.number → (s'.member k).retired = (s.member k).retired)
    (hret' : (s'.member r.number).retired)
    (hown : s.Registers r → ∃ c, β' c = .retired r ∨ β' c = .closed r false)
    (hβ : ∀ c, (β c).IsDebt → β' c = β c ∨ β c = .displaced r)
    (hg : ∀ r', s.Registers r' → s.Genuine r') : s'.Accounted β' where
  retired r' hr' hm := by
    have hr₀ := (hreg r').1 hr'
    by_cases hn : r'.number = r.number
    · obtain rfl := (hg r' hr₀).ext hr hn
      exact hown hr₀
    · obtain ⟨c, hc⟩ := h.retired r' hr₀ (hret _ hn ▸ hm)
      refine ⟨c, ?_⟩
      have hdebt : (β c).IsDebt := by rcases hc with hc | hc <;> rw [hc] <;> trivial
      rcases hβ c hdebt with e | e
      · rwa [e]
      · rcases hc with hc | hc <;> rw [e] at hc <;> cases hc
  missing r' hg' hr' hm := by
    have hn : r'.number ≠ r.number := by
      intro hn
      rw [hn, hret'] at hm
      cases hm
    obtain ⟨c, hc⟩ := h.missing r' (hgen r' hg') (fun e => hr' ((hreg r').2 e)) (hret _ hn ▸ hm)
    refine ⟨c, ?_⟩
    rcases hβ c (by rw [hc]; trivial) with e | e
    · rw [e, hc]
    · rw [hc] at e
      cases e
      exact absurd rfl hn

/-- A member that a call had retired is struck off. -/
theorem strike {c : Nat} {r : Ref} {β₁ : Burden} (h : s.Accounted β)
    (hc : β c = .retired r ∨ β c = .closed r false) (hret : (s.member r.number).retired) :
    (if s.Registers r then s.unregister r.id else s).Accounted (update β c β₁) := by
  have hkeep : ∀ {k r'}, r' ≠ r → (β k = .retired r' ∨ β k = .closed r' false) →
      update β c β₁ k = β k := by
    intro k r' hne hk
    refine Function.update_of_ne ?_ _ _
    rintro rfl
    rcases hc with hc | hc <;> rcases hk with hk | hk <;> rw [hc] at hk <;> cases hk <;>
      exact hne rfl
  have hkeep' : ∀ {k r'}, β k = .displaced r' → update β c β₁ k = β k := by
    intro k r' hk
    refine Function.update_of_ne ?_ _ _
    rintro rfl
    rcases hc with hc | hc <;> rw [hc] at hk <;> cases hk
  have hreg : ∀ {r'}, (s.unregister r.id).Registers r' ↔ r'.id ≠ r.id ∧ s.Registers r' := by
    intro r'
    simp only [Registers, unregister, Table.find?_remove]
    split
    · rename_i e
      exact iff_of_false (fun h => by cases h) fun hn => hn.1 e
    · rename_i e
      exact ⟨fun h => ⟨e, h⟩, And.right⟩
  split
  · rename_i hr
    constructor
    · intro r' hr' hm
      obtain ⟨hid, hr'⟩ := hreg.1 hr'
      obtain ⟨k, hk⟩ := h.retired r' hr' hm
      exact ⟨k, by rwa [hkeep (fun e => hid (congrArg Ref.id e)) hk]⟩
    · intro r' hg hr' hm
      refine (h.missing r' hg (fun e => ?_) hm).imp fun k hk => (hkeep' hk).trans hk
      by_cases hid : r'.id = r.id
      · have hrr : r' = r := Option.some.inj (e.symm.trans (hid ▸ hr))
        rw [hrr, member_unregister, hret] at hm
        cases hm
      · exact hr' (hreg.2 ⟨hid, e⟩)
  · rename_i hr
    constructor
    · intro r' hr' hm
      obtain ⟨k, hk⟩ := h.retired r' hr' hm
      exact ⟨k, by rwa [hkeep (fun e => hr (e ▸ hr')) hk]⟩
    · intro r' hg hr' hm
      exact (h.missing r' hg hr' hm).imp fun k hk => (hkeep' hk).trans hk

/-- A new member is registered. If that displaces another one, it falls to the call to shut it. -/
theorem enrol {c l : Nat} {kind : WorkerKind} {id : UInt32} {β₁ : Burden} (h : s.Accounted β)
    (hc : ¬(β c).IsDebt) (hβ₁ : ∀ r, Table.find? id s.registry = some r → β₁ = .displaced r)
    (hg : ∀ r, s.Registers r → s.Genuine r) :
    (s.enrol kind id l).Accounted (update β c β₁) where
  retired r hr hm := by
    simp only [Registers, Standing.enrol, Table.find?_put] at hr
    split at hr
    · cases hr
      rw [member_enrol_new] at hm
      cases hm
    · rw [member_enrol_old kind id l (hg r hr).1] at hm
      obtain ⟨k, hk⟩ := h.retired r hr hm
      have hdebt : (β k).IsDebt := by rcases hk with hk | hk <;> rw [hk] <;> trivial
      exact ⟨k, by rwa [update_of_not_debt hc hdebt]⟩
  missing r hgen hr hm := by
    simp only [Registers, Standing.enrol, Table.find?_put] at hr
    obtain ⟨hlt, hkind, hid⟩ := hgen
    rw [length_enrol] at hlt
    rcases Nat.lt_succ_iff_lt_or_eq.1 hlt with hlt | heq
    · rw [member_enrol_old kind id l hlt] at hkind hid hm
      by_cases hreg : s.Registers r
      · have hrid : r.id = id := by
          by_contra hne
          rw [if_neg hne] at hr
          exact hr hreg
        exact ⟨c, by rw [Function.update_self]; exact hβ₁ r (hrid ▸ hreg)⟩
      · obtain ⟨k, hk⟩ := h.missing r ⟨hlt, hkind, hid⟩ hreg hm
        exact ⟨k, by rw [update_of_not_debt hc (by rw [hk]; trivial)]; exact hk⟩
    · rw [heq, member_enrol_new] at hkind hid
      obtain ⟨n, k, i⟩ := r
      cases heq
      cases hkind
      cases hid
      exact absurd (if_pos rfl) hr

end Accounted

end Standing

/-! ## Everything is accounted for -/

namespace Broker

variable {b : Broker Result} {β : Nat → Burden} {c : Nat} {β₀ β₁ : Burden}

/-- An act that does not drop a member by name leaves everything accounted for. -/
theorem act_accounted {licence : Licence Result} {a : Act} {x : a.Answer}
    (hd : licence.dismisses = none) (hs : b.standing.Sound β) (h : b.standing.Accounted β)
    (hβ : β c = β₀) (ha : β₀.Acts licence a x β₁) (hx : (b.act a).1 = x) :
    (b.act a).2.standing.Accounted (update β c β₁) := by
  have hg : ∀ r, b.standing.Registers r → b.standing.Genuine r := fun _ => hs.genuine
  have hdebt : ¬β₀.IsDebt → ¬(β c).IsDebt := fun h => by rwa [hβ]
  have hfor : ∀ {l p}, β₀.IsFor l p → ¬β₀.IsDebt := by
    rintro l p (rfl | ⟨r, rfl⟩) <;> exact id
  have hadvance : ∀ r, ∀ β' : Nat → Burden, b.standing.Accounted β' →
      (b.act (.advance r)).2.standing.Accounted β' := by
    intro r β' h
    rw [standing_advance]
    refine h.congr (fun _ => Iff.rfl) (fun r' hr' => ?_) (fun n => ?_) fun _ _ => rfl
    · exact Standing.genuine_of_change (by intro; exact ⟨rfl, rfl⟩) hr'
    · exact Standing.retired_change_of_eq (by intro; rfl) _ _ _
  cases ha with
  | lookUp _ | miss | roster =>
    rw [← hβ, Function.update_eq_self]
    exact h
  | hit => exact h.burden (hdebt id)
  | enrol hf =>
    rw [standing_enrol]
    refine h.enrol (hdebt (hfor hf)) (fun r hr => ?_) hg
    cases hr.symm.trans hx
  | displace hf =>
    rw [standing_enrol]
    refine h.enrol (hdebt (hfor hf)) (fun r hr => ?_) hg
    cases hr.symm.trans hx
    rfl
  | strike =>
    rw [standing_strike]
    have ht := hs.burdens c
    rw [hβ] at ht
    exact h.strike (.inl hβ) ht.2
  | strikeClosed =>
    rw [standing_strike]
    have ht := hs.burdens c
    rw [hβ] at ht
    exact h.strike (.inr hβ) ht.2
  | dismiss hid =>
    rw [hd] at hid
    cases hid
  | announce hf =>
    refine hadvance _ _ (h.burden (hdebt ?_))
    rcases hf with ⟨-, rfl⟩ | rfl <;> exact id
  | advance _ => exact hadvance _ _ (h.burden (hdebt id))
  | depose =>
    rw [← hβ, Function.update_eq_self]
    exact hadvance _ _ h
  | discard | reject =>
    change (b.hangUp _).standing.Accounted _
    rw [standing_hangUp]
    exact (h.burden (hdebt id)).congr (fun _ => Iff.rfl) (fun _ => id) (fun _ => rfl) fun _ _ => rfl

/-- A member is shut by a call that has it as its burden. -/
theorem shut_accounted {r : Ref} (hs : b.standing.Sound β) (h : b.standing.Accounted β)
    (hr : b.standing.Genuine r)
    (hβ : β c = .closing r ∧ β₁ = .closed r false ∨ β c = .displaced r) :
    (b.take r.number .shut).2.standing.Accounted (update β c β₁) := by
  have hlt : r.number < (b.standing.disconnect r.number).members.length := by simpa using hr.1
  rw [standing_shut]
  refine h.retire hr (fun r' => ?_) (fun r' hr' => ?_) (fun k hk => ?_) ?_ (fun hreg => ?_)
    (fun k hk => ?_) fun _ => hs.genuine
  · rw [Standing.Registers, Standing.registry_change, Standing.registry_disconnect]
    rfl
  · exact Standing.genuine_of_disconnect
      (Standing.genuine_of_change (by intro; exact ⟨rfl, rfl⟩) hr')
  · rw [Standing.member_change_ne _ _ hk, Standing.member_disconnect_ne _ hk]
  · rw [Standing.member_change_self hlt]
  · rcases hβ with ⟨-, rfl⟩ | hβ
    · exact ⟨c, .inr (Function.update_self ..)⟩
    · -- what was displaced is not registered any more
      have ht := hs.burdens c
      rw [hβ] at ht
      exact absurd hreg ht.2
  · by_cases hkc : k = c
    · subst hkc
      rcases hβ with ⟨hβ, -⟩ | hβ
      · rw [hβ] at hk
        exact hk.elim
      · exact .inr hβ
    · exact .inl (Function.update_of_ne hkc ..)

/-- A turn leaves everything accounted for. -/
theorem turn_accounted {licence : Licence Result} {r : Ref} {t : Turn} {x : t.Answer}
    (hs : b.standing.Sound β) (h : b.standing.Accounted β) (hr : b.standing.Genuine r)
    (hβ : β c = β₀) (ht : β₀.Turns licence r t x β₁) (hx : (b.take r.number t).1 = x) :
    (b.take r.number t).2.standing.Accounted (update β c β₁) := by
  have hdebt : ¬β₀.IsDebt → ¬(β c).IsDebt := fun h => by rwa [hβ]
  cases ht with
  | taken =>
    obtain ⟨-, -, hst⟩ := take_offer_taken hx
    rw [hst]
    refine (h.burden (hdebt id)).congr (fun r' => ?_) (fun r' hr' => ?_) (fun n => ?_)
      fun _ _ => rfl
    · rw [Standing.Registers, Standing.registry_change, Standing.registry_disconnect]
      rfl
    · exact Standing.genuine_of_disconnect
        (Standing.genuine_of_change (by intro; exact ⟨rfl, rfl⟩) hr')
    · rw [Standing.retired_change_of_eq (by intro; rfl), Standing.retired_disconnect]
  | superseded =>
    obtain ⟨-, -, hst⟩ := take_offer_superseded hx
    rw [hst, standing_hangUp]
    exact (h.burden (hdebt id)).congr (fun _ => Iff.rfl) (fun _ => id) (fun _ => rfl) fun _ _ => rfl
  | handedBack =>
    obtain ⟨-, hst⟩ := take_offer_handedBack hx
    rw [hst]
    exact h.burden (hdebt id)
  | shut => exact shut_accounted hs h hr (.inl ⟨hβ, rfl⟩)
  | depose => exact shut_accounted hs h hr (.inr hβ)
  | retire =>
    obtain ⟨-, hst⟩ := take_retire_true hx
    rw [hst]
    refine h.retire hr (fun _ => Iff.rfl) (fun r' hr' => ?_) (fun k hk => ?_) ?_ (fun _ => ?_)
      (fun k hk => .inl (Standing.Accounted.update_of_not_debt (hdebt id) hk)) fun _ => hs.genuine
    · exact Standing.genuine_of_change (by intro; exact ⟨rfl, rfl⟩) hr'
    · rw [Standing.member_change_ne _ _ hk]
    · rw [Standing.member_change_self hr.1]
    · exact ⟨c, .inl (Function.update_self ..)⟩
  | keep =>
    obtain ⟨-, hst⟩ := take_retire_false hx
    rw [hst]
    exact h.burden (hdebt id)
  | look =>
    rw [← hβ, Function.update_eq_self]
    exact h

end Broker

/-- No move of operations that neither drop a member by name nor end with a burden leaves anything
unaccounted for. -/
theorem Effect.accounted {asked : Nat → Operation} {b : Broker Result} {m : Move Result}
    {β β' : Nat → Burden} {s' : Standing} (he : Effect asked b m β s' β')
    (hc : b.CallsOk asked β) (hs : b.standing.Sound β) (h : b.standing.Accounted β)
    (hops : ∀ c, (asked c).licence.dismisses = none ∧ (asked c).licence.leaves = false) :
    s'.Accounted β' := by
  have hdisconnect : ∀ n, (b.standing.disconnect n).Accounted β := fun n =>
    h.congr
      (fun r' => by rw [Standing.Registers, Standing.registry_disconnect]; rfl)
      (fun _ => Standing.genuine_of_disconnect) (fun k => Standing.retired_disconnect _ n k)
      fun _ _ => rfl
  cases he with
  | still _ => exact h
  | accepted _ => exact h.congr (fun _ => Iff.rfl) (fun _ => id) (fun _ => rfl) fun _ _ => rfl
  | begun op _ _ _ _ =>
    refine h.burden ?_
    rw [hc.idle _ (Nat.le_refl _)]
    exact id
  | finished c _ hl =>
    rw [(hops c).2] at hl
    cases hl
  | acted c a β₁ _ _ _ ha => exact Broker.act_accounted (hops c).1 hs h rfl ha rfl
  | turned c r turn β₁ _ _ hr ht => exact Broker.turn_accounted hs h hr rfl ht rfl
  | greeted c l o _ hβ =>
    refine h.burden ?_
    rw [hβ]
    exact id
  | failed n _ _ _ _ _ | released n _ _ => exact hdisconnect n

/-! ## Once every call is over -/

namespace Operation

/-- Registrations, sweeps, commands and exits. -/
def IsRoutine : Operation → Prop
  | registerPrimary _ | registerSecondary _ | listing | cpuUsage | cpuUnused _ _ | execute _ _
  | exit _ => True
  | terminate _ _ | replaceConnection _ _ | close _ | retire _ => False

theorem IsRoutine.licence {op : Operation} (h : op.IsRoutine) :
    op.licence.dismisses = none ∧ op.licence.leaves = false := by
  cases op <;> first | exact ⟨rfl, rfl⟩ | exact h.elim

end Operation

namespace Broker

variable {asked : Nat → Operation} {b : Broker Result}

/-- A call that is over has seen to everything. -/
theorem not_isDebt_of_finished {β : Nat → Burden} (hc : b.CallsOk asked β)
    (hops : ∀ c, (asked c).licence.leaves = false) (hf : ∀ call ∈ b.calls, call.result?.isSome)
    (c : Nat) : ¬(β c).IsDebt := by
  by_cases hlt : c < b.calls.length
  · have hb := hc.bears c _ (List.getElem?_eq_getElem hlt)
    have hres := hf _ (List.getElem_mem hlt)
    rw [Call.result?] at hres
    split at hres
    · rename_i x hx
      rw [hx] at hb
      obtain ⟨hends | ⟨hn, -⟩ | ⟨r, hr, -⟩, -⟩ := hb
      · rw [hops c] at hends
        cases hends
      · rw [hn]
        exact id
      · rw [hr]
        exact id
    · cases hres
  · rw [hc.idle c (by omega)]
    exact id

/-- What is kept in a run of routine operations. -/
structure Routine (past : List (Deed Result)) (b : Broker Result) (β : Nat → Burden) : Prop where
  accounted : b.standing.Accounted β
  closes : ∀ d ∈ past, ∀ n ch, (d.before.member n).channel = some ch →
    (b.member n).channel = some ch ∨ b.standing.IsClosed ch.link

theorem Routine.step {past : List (Deed Result)} {m : Move Result} {b' : Broker Result}
    {β β' : Nat → Burden} (h : Routine past b β) (hops : ∀ c, (asked c).IsRoutine)
    (hm : Stride asked b m β b' β') : Routine (past ++ [⟨b, m⟩]) b' β' where
  accounted := hm.effect.accounted hm.before.calls hm.before.sound h.accounted fun c =>
    (hops c).licence
  closes d hd n ch hn := by
    have hlast : (b.member n).channel = some ch →
        (b'.member n).channel = some ch ∨ b'.standing.IsClosed ch.link := by
      intro hn
      rw [← channel_standing] at hn ⊢
      exact hm.effect.closes hm.before.held hn
    rcases List.mem_append.1 hd with hd | hd
    · rcases h.closes d hd n ch hn with hn | hc
      · exact hlast hn
      · exact .inr (hm.effect.isClosed hc)
    · rw [List.mem_singleton.1 hd] at hn
      exact hlast hn

/-- Registered means usable, unregistered means closed. After any run of registrations, sweeps,
commands and exits, in any order of their steps, once every call is over: a member is registered if
and only if it is not retired, and one that is not registered has no connection; those it had are
closed. -/
theorem registered_iff_usable {timeout : Nat} {past : List (Deed Result)}
    (hops : ∀ c, (asked c).IsRoutine)
    (hr : Run (fun _ => Operation.Starts asked) (fresh timeout) past b)
    (hf : ∀ call ∈ b.calls, call.result?.isSome) {n : Nat} (hn : n < b.members.length) :
    ((∃ e ∈ b.registry, e.2.number = n) ↔ (b.member n).retired = false) ∧
      ((∀ e ∈ b.registry, e.2.number ≠ n) → (b.member n).channel = none ∧
        ∀ d ∈ past, ∀ ch, (d.before.member n).channel = some ch →
          (b.link ch.link).closed = true) := by
  obtain ⟨β, hcourse, hroutine⟩ := hr.course (P := Routine) (fun _ _ _ h => h)
    (.fresh asked timeout) ⟨⟨nofun, nofun⟩, nofun⟩ fun _ _ _ _ _ _ hp _ hm => hp.step hops hm
  have hs := hcourse.sound
  have hdebt := not_isDebt_of_finished hcourse.calls (fun c => (hops c).licence.2) hf
  -- the handle of the member
  let r : Ref := ⟨n, (b.standing.member n).kind, (b.standing.member n).id⟩
  have hg : b.standing.Genuine r := ⟨by simpa using hn, rfl, rfl⟩
  have hiff : (∃ e ∈ b.registry, e.2.number = n) ↔ (b.member n).retired = false := by
    constructor
    · rintro ⟨e, he, rfl⟩
      by_contra hret
      obtain ⟨c, hc⟩ := hroutine.accounted.retired e.2
        (hs.registers (hs.ascending.find?_eq_some he)) (by simpa using hret)
      exact hdebt c (by rcases hc with hc | hc <;> rw [hc] <;> trivial)
    · intro hret
      by_contra hreg
      obtain ⟨c, hc⟩ := hroutine.accounted.missing r hg
        (fun h => hreg ⟨(r.id, r), Table.mem_of_find? h, rfl⟩) (by simpa using hret)
      exact hdebt c (by rw [hc]; trivial)
  refine ⟨hiff, fun hno => ?_⟩
  have hret : (b.member n).retired = true := by
    by_contra hret
    obtain ⟨e, he, hen⟩ := hiff.2 (by simpa using hret)
    exact hno e he hen
  have hvacant : (b.member n).channel = none := by
    have := hs.vacant n (by simpa using hret)
    simpa using this
  refine ⟨hvacant, fun d hd ch hch => ?_⟩
  rcases hroutine.closes d hd n ch hch with h | h
  · rw [hvacant] at h
    cases h
  · rw [Standing.IsClosed, standing, List.getElem?_map] at h
    obtain ⟨link, hl, hclosed⟩ := Option.map_eq_some_iff.1 h
    rw [Broker.link, hl]
    exact hclosed

/-- The primary is registered, it is told to end, and it connects again. -/
def primaryReturns : Nat → Operation
  | 0 => .registerPrimary 0
  | 1 => .exit ⟨0, .primary, primaryId⟩
  | 2 => .registerPrimary 1
  | _ => .listing

/-- The new connection is announced to the member just before it is shut. So it is handed back and
a new member is made for it, which displaces the one that has ended; that one is not struck off
any more. -/
def primaryReturns.script : List Cue :=
  [.move .accept, .call, .move (.run 0), .move (.run 0), .move (.run 0),
    -- it is told to end, and answers
    .call, .move (.run 1), .move (.serve 0), .move (.signal 0 (.bytes "[]".toUTF8.toList)),
    .move (.receive 1 0),
    -- it connects again, and is found
    .move .accept, .call, .move (.run 2),
    -- it is shut, and hands the connection back
    .move (.run 1), .move (.run 1), .move (.run 2), .move (.serve 0), .move (.run 2),
    .move (.serve 0), .move (.run 2),
    -- it is displaced, and shut once more
    .move (.run 2), .move (.run 2), .move (.serve 0), .move (.run 2),
    .move (.run 1), .move (.run 1)]

theorem registered_iff_usable_when_returning :
    ∃ past b, Run (fun _ => Operation.Starts primaryReturns) (fresh 5) past b ∧
      (∀ call ∈ b.calls, call.result?.isSome) ∧ b.members.length = 2 ∧
      ((b.member 0).retired = true ∧ (b.member 0).channel = none ∧ (b.link 0).closed = true) ∧
      ∃ e ∈ b.registry, e.2.number = 1 := by
  obtain ⟨past, b, hr, hf, hlen, hno, ⟨d, hd, hch⟩, hret⟩ :
      ∃ past b, Run (fun _ => Operation.Starts primaryReturns) (fresh 5) past b ∧
        (∀ call ∈ b.calls, call.result?.isSome) ∧ b.members.length = 2 ∧
        (∀ e ∈ b.registry, e.2.number ≠ 0) ∧
        (∃ d ∈ past, (d.before.member 0).channel = some ⟨0, 0⟩) ∧ (b.member 1).retired = false :=
    exists_run_of_play (fun _ _ => True) primaryReturns.script (fun _ _ _ h _ => h)
      (by decide +kernel)
  have hops : ∀ c, (primaryReturns c).IsRoutine
    | 0 | 1 | 2 | _ + 3 => trivial
  obtain ⟨hold, hclosed⟩ := registered_iff_usable (n := 0) hops hr hf (by omega)
  obtain ⟨hnew, -⟩ := registered_iff_usable (n := 1) hops hr hf (by omega)
  obtain ⟨hnone, hlinks⟩ := hclosed hno
  have hretired : (b.member 0).retired = true := by
    by_contra h
    obtain ⟨e, he, hn⟩ := hold.2 (by simpa using h)
    exact hno e he hn
  exact ⟨past, b, hr, hf, hlen, ⟨hretired, hnone, hlinks d hd _ hch⟩, hnew.2 hret⟩

end Broker

end WorkerBroker
