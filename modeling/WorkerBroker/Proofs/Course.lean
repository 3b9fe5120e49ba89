import Mathlib.Data.List.Induction
import WorkerBroker.Proofs.Calls
/-!
# The course of a run

Every move has one of the effects of `Effect`, and each of these keeps the registry and the members
sound and the connections in one place. So all of this holds throughout a run that starts nothing
but operations (`Broker.Course`). `Broker.Run.course` is the induction on runs for whatever else is
to be shown of them: it is left to say what holds at the beginning and what each effect keeps.
-/

namespace WorkerBroker

open Function (update)

/-- Who a worker says it is: it has its kind and its id from a secondary. -/
theorem identity?_eq_some {o : Outcome} {p : Identity} (h : identity? o = some p) :
    p.1 ≠ .primary ∧ p.2 ≠ primaryId := by
  simp only [identity?] at h
  split at h
  · rename_i q hq
    cases h
    cases o with
    | error s => cases hq
    | ok raw =>
      simp only [Program.whoAnswered, identityOf] at hq
      split at hq
      · cases hq
      · rename_i reply _
        split at hq
        · rename_i kind id hi
          split at hq
          · cases hq
          · rename_i hid
            cases hq
            refine ⟨?_, hid⟩
            -- only the kinds of secondaries are tried
            obtain ⟨k, hk, hk'⟩ := List.exists_of_findSome?_eq_some hi
            obtain ⟨i, -, hi⟩ := Option.map_eq_some_iff.1 hk'
            obtain ⟨rfl, rfl⟩ := Prod.mk.inj hi
            rintro rfl
            simp [identifyOrder] at hk
        · cases hq
  · cases h

namespace Broker

variable {asked : Nat → Operation} {b b' : Broker Result} {m : Move Result} {β β' : Nat → Burden}

/-! ## What acts and turns keep -/

/-- What an act does keeps everything sound. -/
theorem act_sound {licence : Licence Result} {c : Nat} {a : Act} {x : a.Answer} {β₀ β₁ : Burden}
    (hs : b.standing.Sound β) (hβ : β c = β₀) (h : β₀.Acts licence a x β₁) (hx : (b.act a).1 = x)
    (hr : ∀ r ∈ a.member?, b.standing.Genuine r) :
    (b.act a).2.standing.Sound (update β c β₁) := by
  have ht := hs.burdens c
  cases h with
  | lookUp _ | miss | roster =>
    rw [← hβ, Function.update_eq_self]
    exact hs
  | hit =>
    rw [hβ] at ht
    obtain ⟨hid, hg⟩ := hs.keyed _ _ hx
    exact hs.burden ⟨hg, hid, ht⟩
  | enrol hf =>
    rw [standing_enrol]
    exact (hs.enrol _ (hs.isFor (hβ ▸ hf))).burden trivial
  | displace hf =>
    rw [standing_enrol]
    obtain ⟨hid, hg⟩ := hs.keyed _ _ hx
    refine (hs.enrol _ (hs.isFor (hβ ▸ hf))).burden ⟨hg.enrol .., fun hreg => ?_⟩
    simp only [Standing.Registers, Standing.enrol, Table.find?_put, hid, if_true] at hreg
    have hn : b.standing.members.length = _ := congrArg Ref.number (Option.some.inj hreg)
    exact absurd hg.1 (by omega)
  | strike =>
    rw [standing_strike]
    split
    · exact (hs.unregister _).burden trivial
    · exact hs.burden trivial
  | strikeClosed =>
    rw [hβ] at ht
    rw [standing_strike]
    split
    · exact (hs.unregister _).burden ht
    · exact hs.burden ht
  | @dismiss kind id x h =>
    rcases b.standing_dismiss kind id with e | e <;> rw [e]
    · exact hs.burden trivial
    · exact (hs.unregister _).burden trivial
  | announce _ | advance _ =>
    have hg : Standing.Keeps fun m => { m with generation := m.generation + 1 } :=
      ⟨fun _ => rfl, fun _ => rfl, fun _ => id⟩
    rw [standing_advance]
    exact (hs.change _ hg (hs.vacant _)).burden (Standing.Genuine.of_keeps (hr _ rfl) _ hg)
  | depose =>
    rw [← hβ, Function.update_eq_self, standing_advance]
    exact hs.change _ ⟨fun _ => rfl, fun _ => rfl, fun _ => id⟩ (hs.vacant _)
  | discard | reject =>
    change (b.hangUp _).standing.Sound _
    rw [standing_hangUp]
    exact (hs.hangUp _).burden trivial

/-- What a turn does keeps everything sound. -/
theorem turn_sound {licence : Licence Result} {c : Nat} {r : Ref} {t : Turn} {x : t.Answer}
    {β₀ β₁ : Burden} (hs : b.standing.Sound β) (hβ : β c = β₀) (h : β₀.Turns licence r t x β₁)
    (hx : (b.take r.number t).1 = x) (hr : b.standing.Genuine r) :
    (b.take r.number t).2.standing.Sound (update β c β₁) := by
  have hretire : Standing.Keeps fun m => { m with retired := true } :=
    ⟨fun _ => rfl, fun _ => rfl, fun _ _ => rfl⟩
  have hshut : ∀ β : Nat → Burden, b.standing.Sound β →
      (b.take r.number .shut).2.standing.Sound β := by
    intro β hs
    rw [standing_shut]
    exact (hs.disconnect _).change _ hretire fun _ => by rw [Standing.member_disconnect_self]
  cases h with
  | taken =>
    obtain ⟨hret, -, hst⟩ := take_offer_taken hx
    rw [hst]
    refine Standing.Sound.burden ?_ trivial
    refine (hs.disconnect _).change _ ⟨fun _ => rfl, fun _ => rfl, fun _ => id⟩ fun h => ?_
    rw [Standing.member_disconnect_self, retired_standing, hret] at h
    cases h
  | superseded =>
    obtain ⟨-, -, hst⟩ := take_offer_superseded hx
    rw [hst, standing_hangUp]
    exact (hs.hangUp _).burden trivial
  | handedBack =>
    obtain ⟨-, hst⟩ := take_offer_handedBack hx
    rw [hst]
    exact hs.burden (hs.primary_iff hr)
  | shut =>
    refine (hshut β hs).burden ⟨genuine_take hr _ _, ?_⟩
    rw [standing_shut, Standing.member_change_self (by simpa using hr.1)]
  | depose => exact (hshut β hs).burden trivial
  | retire =>
    obtain ⟨hc, hst⟩ := take_retire_true hx
    rw [hst]
    refine (hs.change _ hretire fun _ => by simpa using hc).burden ⟨hr.of_keeps _ hretire, ?_⟩
    rw [Standing.member_change_self hr.1]
  | keep =>
    obtain ⟨-, hst⟩ := take_retire_false hx
    rw [hst]
    exact hs.burden trivial
  | look =>
    rw [← hβ, Function.update_eq_self]
    exact hs

/-! ## What moves keep -/

/-- A connection in hand was handed to a call that goes on. -/
theorem CallsOk.active_of_link? {c l : Nat} (hc : b.CallsOk asked β) (hl : (β c).link? = some l) :
    ∃ call, b.calls[c]? = some call ∧ call.isActive ∧ call.brings = some l := by
  have hlt : c < b.calls.length := by
    by_contra hlt
    rw [hc.idle c (by omega)] at hl
    cases hl
  have hcall : b.calls[c]? = some b.calls[c] := List.getElem?_eq_getElem hlt
  refine ⟨b.calls[c], hcall, ?_, ?_⟩
  · have hb := hc.bears c _ hcall
    rw [Call.isActive]
    cases hp : b.calls[c].phase with
    | finished x =>
      rw [hp] at hb
      obtain ⟨hends | ⟨hn, -⟩ | ⟨r, hr, -⟩, hleft⟩ := hb
      · rw [hleft hends] at hl
        cases hl
      · rw [hn] at hl
        cases hl
      · rw [hr] at hl
        cases hl
    | abandoned =>
      rw [hp] at hb
      rw [show (β c).link? = none from hb] at hl
      cases hl
    | _ => rfl
  · rw [hc.brings c _ hcall]
    exact (hc.suits c).link l hl

/-- A call that is over has nothing in hand. -/
theorem CallsOk.link?_of_finished {c : Nat} {x : Result} (hc : b.CallsOk asked β)
    (h : b.phase? c = some (.finished x)) : (β c).link? = none := by
  rcases hl : (β c).link? with _ | l
  · rfl
  · obtain ⟨call, hcall, hact, -⟩ := hc.active_of_link? hl
    obtain ⟨call', hcall', hp⟩ := exists_call_of_phase h
    cases hcall.symm.trans hcall'
    rw [Call.isActive, hp] at hact
    cases hact

/-- The burden of a call that is over is one that it may end with. -/
theorem CallsOk.ends_of_finished {c : Nat} {x : Result} (hc : b.CallsOk asked β)
    (h : b.phase? c = some (.finished x)) : (asked c).licence.Ends (β c) x := by
  obtain ⟨call, hcall, hp⟩ := exists_call_of_phase h
  have hb := hc.bears c call hcall
  rw [hp] at hb
  exact hb.1

/-- What an operation has to see to from the start is true. -/
theorem isTrue_burden {op : Operation} (hs : b.standing.Sound β)
    (hr : ∀ r ∈ op.refs, b.standing.Genuine r) : op.burden.IsTrue b.standing := by
  cases op with
  | registerPrimary l => exact iff_of_true rfl rfl
  | replaceConnection r l => exact hs.primary_iff (hr r List.mem_cons_self)
  | _ => trivial

/-- A connection that is free can be handed over. -/
theorem held_start {op : Operation} (hc : b.CallsOk asked β) (hh : b.standing.Held β)
    (ha : op.Admits b) : b.standing.Held (update β b.calls.length op.burden) := by
  refine hh.take fun l hl => ?_
  obtain ⟨hlt, hopen, hch, hcalls⟩ := ha.2 l ((Burden.Suits.start op).link l hl)
  refine ⟨?_, fun n ch hn e => ?_, fun k hk => ?_⟩
  · rw [Standing.IsOpen, standing, List.getElem?_map, List.getElem?_eq_getElem hlt]
    rw [Broker.link, List.getElem?_eq_getElem hlt] at hopen
    exact congrArg some hopen
  · rw [channel_standing] at hn
    have hlt : n < b.members.length := by
      by_contra hlt
      rw [member, List.getElem?_eq_none (by omega)] at hn
      cases hn
    refine hch _ (List.getElem_mem hlt) ?_
    rw [member, List.getElem?_eq_getElem hlt] at hn
    rw [show b.members[n].channel = some ch from hn, ← e]
    rfl
  · obtain ⟨call, hcall, hact, hbr⟩ := hc.active_of_link? hk
    exact hcalls call (List.mem_of_getElem? hcall) hact hbr

theorem isTrue_afterGreeting (s : Standing) (l : Nat) (o : Outcome) :
    (Burden.afterGreeting l o).IsTrue s := by
  cases o with
  | error _ => trivial
  | ok raw =>
    rcases hi : identity? (.ok raw) with _ | p
    · rw [Burden.afterGreeting, hi]
      trivial
    · rw [Burden.afterGreeting, hi]
      obtain ⟨hk, hid⟩ := identity?_eq_some hi
      exact iff_of_false hk hid

section

variable {ω : Type} {b : Broker ω} {β : Nat → Burden} {l n : Nat} {ch : Channel}

/-- No act opens a connection again. -/
theorem isClosed_act (h : b.standing.IsClosed l) (a : Act) : (b.act a).2.standing.IsClosed l := by
  cases a with
  | enrol kind id link =>
    rw [standing_enrol]
    exact h
  | strike r =>
    rw [standing_strike]
    split <;> exact h
  | dismiss kind id =>
    rcases b.standing_dismiss kind id with e | e <;> rw [e] <;> exact h
  | advance r =>
    rw [standing_advance]
    exact h
  | discard l' =>
    change (b.hangUp l').standing.IsClosed l
    rw [standing_hangUp]
    exact h.hangUp l'
  | find _ | roster | reinstate _ => exact h

/-- Nor does a turn on a member. -/
theorem isClosed_take (h : b.standing.IsClosed l) (k : Nat) (turn : Turn) :
    (b.take k turn).2.standing.IsClosed l := by
  cases turn with
  | offer g l' =>
    rcases ha : (b.take k (.offer g l')).1 with _ | _ | _
    · rw [(take_offer_taken ha).2.2]
      exact h.disconnect _
    · rw [(take_offer_superseded ha).2.2, standing_hangUp]
      exact h.hangUp l'
    · rw [(take_offer_handedBack ha).2]
      exact h
  | shut =>
    rw [standing_shut]
    exact h.disconnect _
  | retire =>
    rcases ha : (b.take k .retire).1 with _ | _
    · rw [(take_retire_false ha).2]
      exact h
    · rw [(take_retire_true ha).2]
      exact h
  | look => exact h

/-- A connection that a member loses in a turn is closed. -/
theorem closes_take (hh : b.standing.Held β) (k : Nat) (turn : Turn)
    (hn : (b.standing.member n).channel = some ch) :
    ((b.take k turn).2.standing.member n).channel = some ch ∨
      (b.take k turn).2.standing.IsClosed ch.link := by
  cases turn with
  | offer g l' =>
    rcases ha : (b.take k (.offer g l')).1 with _ | _ | _
    · rw [(take_offer_taken ha).2.2]
      by_cases hk : n = k
      · -- the old connection of the member makes room for the new one
        subst hk
        exact .inr (Standing.isClosed_disconnect hh hn)
      · rw [Standing.member_change_ne _ _ hk]
        exact Standing.channel_disconnect hh k hn
    · rw [(take_offer_superseded ha).2.2, standing_hangUp]
      exact .inl hn
    · rw [(take_offer_handedBack ha).2]
      exact .inl hn
  | shut =>
    rw [standing_shut]
    refine (Standing.channel_disconnect hh k hn).imp (fun h => ?_) id
    rw [← h]
    exact Standing.channel_change (by intro; rfl) _ _ _
  | retire =>
    rcases ha : (b.take k .retire).1 with _ | _
    · rw [(take_retire_false ha).2]
      exact .inl hn
    · rw [(take_retire_true ha).2]
      refine .inl (Eq.trans ?_ hn)
      exact Standing.channel_change (by intro; rfl) _ _ _
  | look => exact .inl hn

end

end Broker

namespace Effect

variable {asked : Nat → Operation} {b : Broker Result} {m : Move Result} {β β' : Nat → Burden}
  {s' : Standing}

open Broker

/-- Every effect keeps the registry and the members sound. -/
theorem sound (he : Effect asked b m β s' β') (hs : b.standing.Sound β) :
    s'.Sound β' := by
  cases he with
  | still _ => exact hs
  | accepted _ => exact hs.accept
  | begun op _ _ _ hr => exact hs.burden (isTrue_burden hs hr)
  | finished c _ _ => exact hs.burden trivial
  | acted c a β₁ _ _ hr h => exact act_sound hs rfl h rfl hr
  | turned c r turn β₁ _ _ hr h => exact turn_sound hs rfl h rfl hr
  | greeted c l o _ _ => exact hs.burden (isTrue_afterGreeting _ l o)
  | failed n _ _ _ _ _ | released n _ _ => exact hs.disconnect n

/-- Every effect leaves each connection in one place. -/
theorem held (he : Effect asked b m β s' β') (hc : b.CallsOk asked β)
    (hh : b.standing.Held β) : s'.Held β' := by
  cases he with
  | still _ => exact hh
  | accepted _ => exact hh.accept
  | begun op _ _ ha _ => exact held_start hc hh ha
  | finished c _ _ => exact hh.unburden rfl
  | acted c a β₁ _ _ _ h => exact held_act hh h.hand.1 h.hand.2
  | turned c r turn β₁ _ _ hr h => exact held_take hh h.hand.1 h.hand.2 hr
  | greeted c l o _ h =>
    refine hh.burden fun l' hl => ?_
    rw [h]
    cases o <;> exact hl
  | failed n _ _ _ _ _ | released n _ _ => exact hh.disconnect n

/-- Handles stay those of members. -/
theorem genuine {r : Ref} (he : Effect asked b m β s' β') (h : b.standing.Genuine r) :
    s'.Genuine r := by
  cases he with
  | still _ | accepted _ | begun _ _ _ _ _ | finished _ _ _ | greeted _ _ _ _ _ => exact h
  | acted c a β₁ _ _ _ _ => exact genuine_act h a
  | turned c r' turn β₁ _ _ _ _ => exact genuine_take h _ turn
  | failed n _ _ _ _ _ | released n _ _ => exact h.disconnect n

/-- Members are never unmade. -/
theorem length_le (he : Effect asked b m β s' β') :
    b.standing.members.length ≤ s'.members.length := by
  by_contra hlt
  have hg : b.standing.Genuine ⟨s'.members.length, (b.standing.member s'.members.length).kind,
      (b.standing.member s'.members.length).id⟩ := ⟨by dsimp only; omega, rfl, rfl⟩
  exact absurd (he.genuine hg).1 (Nat.lt_irrefl _)

/-- A connection that is closed stays so. -/
theorem isClosed {l : Nat} (he : Effect asked b m β s' β') (h : b.standing.IsClosed l) :
    s'.IsClosed l := by
  cases he with
  | still _ | begun _ _ _ _ _ | finished _ _ _ | greeted _ _ _ _ _ => exact h
  | accepted _ => exact h.accept
  | failed n _ _ _ _ _ | released n _ _ => exact h.disconnect n
  | acted c a β₁ _ _ _ _ => exact isClosed_act h a
  | turned c r turn β₁ _ _ _ _ => exact isClosed_take h _ turn

/-- A connection that a member loses is closed. -/
theorem closes {n : Nat} {ch : Channel} (he : Effect asked b m β s' β') (hh : b.standing.Held β)
    (hn : (b.standing.member n).channel = some ch) :
    (s'.member n).channel = some ch ∨ s'.IsClosed ch.link := by
  cases he with
  | still _ | begun _ _ _ _ _ | finished _ _ _ | greeted _ _ _ _ _ | accepted _ => exact .inl hn
  | failed k _ _ _ _ _ | released k _ _ => exact Standing.channel_disconnect hh k hn
  | acted c a β₁ _ _ _ _ =>
    rw [channel_standing] at hn
    rw [channel_standing]
    exact .inl (channel_act a hn)
  | turned c r turn β₁ _ _ _ _ => exact closes_take hh _ turn hn

end Effect

namespace Broker

variable {asked : Nat → Operation} {b b' : Broker Result} {m : Move Result} {β β' : Nat → Burden}

/-! ## Runs -/

/-- What holds throughout a run: calls are served in order and each keeps to the discipline of its
operation, the registry and the members are sound, and connections are in one place. -/
structure Course (asked : Nat → Operation) (b : Broker Result) (β : Nat → Burden) : Prop where
  order : b.InOrder
  calls : b.CallsOk asked β
  sound : b.standing.Sound β
  held : b.standing.Held β

/-- Nothing has happened. -/
theorem Course.fresh (asked : Nat → Operation) (timeout : Nat) :
    Course asked (fresh timeout) fun _ => .nothing where
  order := .fresh timeout
  calls :=
    { bears := fun c call h => by cases h
      genuine := fun c call h => by cases h
      brings := fun c call h => by cases h
      suits := fun _ => .of_none rfl nofun nofun nofun
      idle := fun _ _ => rfl }
  sound := .fresh timeout
  held :=
    { channel := fun n ch h => by cases h
      hand := fun c l h => by cases h
      apart := fun n ch c h => by cases h
      member := fun n k ch ch' h => by cases h
      call := fun c d l h => by cases h }

/-- A connection that is asked who it is, is in the hands of the call. -/
theorem Course.carries_of_hears (h : Course asked b β) {c l : Nat} {o : Outcome}
    (hm : b.Hears c l o m) : β c = .carries l none := by
  have hb : ∀ {p}, b.phase? c = some p →
      ∃ refs, p.Bears (asked c).licence refs (β c) := fun hp => by
    obtain ⟨call, hcall, rfl⟩ := exists_call_of_phase hp
    exact ⟨call.refs, h.calls.bears c call hcall⟩
  cases m with
  | hear k | giveUp k =>
    obtain ⟨rfl, ⟨d, next, hp⟩, -⟩ := hm
    obtain ⟨refs, hβ, -⟩ := hb hp
    exact hβ
  | run k =>
    obtain ⟨rfl, ⟨next, hp⟩, -⟩ := hm
    obtain ⟨refs, hβ, -⟩ := hb hp
    exact hβ
  | _ => exact hm.elim

/-- What a connection answers, when it is asked who it is, becomes the burden of the call. -/
theorem Course.hears (h : Course asked b β) {c l : Nat} {o : Outcome} {s' : Standing}
    (hm : b.Hears c l o m) (he : Effect asked b m β s' β') :
    β' = update β c (.afterGreeting l o) := by
  have hβ := h.carries_of_hears hm
  have hevent := hm.event?
  cases he with
  | still hp => exact (hp.hears c l o hm).elim
  | greeted c' l' o' hm' _ =>
    obtain ⟨rfl, rfl, rfl⟩ := hm.ext hm'
    rfl
  | failed n ch t s he hch =>
    -- a connection in hand is not that of a member
    rw [hevent] at he
    cases he
    rw [← channel_standing] at hch
    exact absurd (by rw [hβ]; rfl) (h.held.apart n ch c hch)
  | turned _ _ _ _ hm' _ _ _ =>
    rw [hm'.event?] at hevent
    cases hevent
  | finished _ hm' _ | acted _ _ _ hm' _ _ _ =>
    obtain ⟨rfl, x, hp⟩ := hm'
    obtain ⟨rfl, ⟨next, hp'⟩, -⟩ := hm
    cases hp.symm.trans hp'
  | accepted hm' | begun _ _ hm' _ _ | released _ hm' _ =>
    subst hm'
    exact hm.elim

/-- What is known of a move in a run. -/
structure Stride (asked : Nat → Operation) (b : Broker Result) (m : Move Result)
    (β : Nat → Burden) (b' : Broker Result) (β' : Nat → Burden) : Prop where
  before : Course asked b β
  step : b.step m = some b'
  effect : Effect asked b m β b'.standing β'
  after : Course asked b' β'

/-- Every move that starts no more than what calls are asked to do is known in this way. -/
theorem Course.move (h : Course asked b β) (ha : Operation.Starts asked b m)
    (hm : b.step m = some b') : ∃ β', Stride asked b m β b' β' := by
  obtain ⟨β', he, hc, ho⟩ := follows h.order h.calls h.sound ha hm
  exact ⟨β', h, hm, he, ho, hc, he.sound h.sound, he.held h.calls h.held⟩

/-- The last move of a run. -/
theorem Run.of_snoc {ω : Type} {allowed : List (Deed ω) → Broker ω → Move ω → Prop}
    {a c : Broker ω} {past : List (Deed ω)} {d : Deed ω} (h : Run allowed a (past ++ [d]) c) :
    Run allowed a past d.before ∧ allowed past d.before d.move ∧
      d.before.step d.move = some c := by
  generalize hq : past ++ [d] = q at h
  cases h with
  | nil => simp at hq
  | snoc m hr h hm =>
    obtain ⟨rfl, hd⟩ := List.append_inj' hq rfl
    obtain rfl := List.singleton_inj.1 hd
    exact ⟨hr, h, hm⟩

/-- A run can be cut in two. -/
theorem Run.of_append {ω : Type} {allowed : Broker ω → Move ω → Prop} {a c : Broker ω}
    {past past' : List (Deed ω)} (h : Run (fun _ => allowed) a (past ++ past') c) :
    ∃ b, Run (fun _ => allowed) a past b ∧ Run (fun _ => allowed) b past' c := by
  induction past' using List.reverseRecOn generalizing c with
  | nil =>
    rw [List.append_nil] at h
    exact ⟨c, h, .nil⟩
  | append_singleton past' d ih =>
    rw [← List.append_assoc] at h
    obtain ⟨hr, ha, hm⟩ := h.of_snoc
    obtain ⟨b, hb, hr⟩ := ih hr
    exact ⟨b, hb, .snoc d.move hr ha hm⟩

/-- The induction on runs: what holds at the beginning, and is kept by every move, holds at the
end. -/
theorem Run.course {allowed : List (Deed Result) → Broker Result → Move Result → Prop}
    {a : Broker Result} {past : List (Deed Result)} {β₀ : Nat → Burden}
    {P : List (Deed Result) → Broker Result → (Nat → Burden) → Prop} (hr : Run allowed a past b)
    (hall : ∀ past b m, allowed past b m → Operation.Starts asked b m) (hc : Course asked a β₀)
    (h₀ : P [] a β₀) (hP : ∀ past b m β b' β', P past b β → allowed past b m →
      Stride asked b m β b' β' → P (past ++ [⟨b, m⟩]) b' β') :
    ∃ β, Course asked b β ∧ P past b β := by
  induction hr with
  | nil => exact ⟨β₀, hc, h₀⟩
  | snoc m _ ha hm ih =>
    obtain ⟨β, hcourse, hp⟩ := ih
    obtain ⟨β', ht⟩ := hcourse.move (hall _ _ _ ha) hm
    exact ⟨β', ht.after, hP _ _ _ _ _ _ hp ha ht⟩

end Broker

end WorkerBroker
