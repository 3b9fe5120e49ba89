import Mathlib.Logic.Function.Basic
import WorkerBroker.Proofs.Log
import WorkerBroker.Proofs.Moves
import WorkerBroker.Proofs.Operation
import WorkerBroker.Proofs.Serving
import WorkerBroker.Proofs.Sound
/-!
# The course of calls

What a run may start is known (`Operation`), and each operation keeps to the discipline. Here this
is carried along a run. `Broker.CallsOk` says of a state that every call goes on with a program
that obeys under some burden, with handles of members that were made. `Effect` lists what a move
can do to the standing of members and to the burdens, and `Broker.follows` shows that every move is
one of these. Everything that is proved later about members and the registry looks at `Effect`
only, and knows nothing of programs, queues and phases.
-/

namespace WorkerBroker

open Function (update)

/-- A call in this phase has that burden, and what is left of it keeps to the discipline. -/
def Phase.Bears {ω : Type} (licence : Licence ω) (refs : List Ref) (β : Burden) : Phase ω → Prop
  | .running p => p.Obeys licence refs β
  | .entering r turn next => r ∈ refs ∧
      ∀ x, ∃ β', β.Turns licence r turn x β' ∧ (next x).Obeys licence refs β'
  | .conversing legs next => β = .nothing ∧ (∀ l ∈ legs, l.member ∈ refs) ∧
      ∀ outcomes, (next outcomes).Obeys licence refs .nothing
  | .greeting link _ next => β = .carries link none ∧
      ∀ o, (next o).Obeys licence refs (.afterGreeting link o)
  | .finished x => licence.Ends β x ∧ (licence.leaves → β = .nothing)
  | .abandoned => β.link? = none

/-- A call whose commands are all over goes on as it would have. -/
theorem Phase.Bears.phaseOf {ω : Type} {licence : Licence ω} {refs : List Ref} {β : Burden}
    {legs : List Leg} {next : List Outcome → Program ω}
    (h : (Phase.conversing legs next).Bears licence refs β) :
    (Broker.phaseOf legs next).Bears licence refs β := by
  obtain ⟨rfl, hm, hn⟩ := h
  unfold Broker.phaseOf
  split
  · exact hn _
  · exact ⟨rfl, hm, hn⟩

/-! ## The burdens that an operation can have -/

/-- A connection in hand is the one that was handed over, and what is shut is what may be. -/
structure Burden.Suits (op : Operation) (β : Burden) : Prop where
  link : ∀ l, β.link? = some l → op.brings = some l
  unknown : ∀ l, β = .carries l none → op = .registerSecondary l
  displaced : ∀ r, β = .displaced r → op.brings.isSome
  closing : ∀ r, β = .closing r → op.licence.closes = some r
  closed : ∀ r struck, β = .closed r struck → op.licence.closes = some r

namespace Burden.Suits

variable {op : Operation} {β β' : Burden}

theorem start (op : Operation) : op.burden.Suits op := by
  cases op with
  | registerSecondary l =>
    exact ⟨fun _ => id, fun l' e => by cases e; rfl, nofun, nofun, nofun⟩
  | _ => exact ⟨fun _ => id, nofun, nofun, nofun, nofun⟩

/-- What has nothing in hand, and is about nobody, suits any operation. -/
theorem of_none (hl : β.link? = none) (hd : ∀ r, β ≠ .displaced r) (hc : ∀ r, β ≠ .closing r)
    (hs : ∀ r struck, β ≠ .closed r struck) : β.Suits op where
  link l h := (Option.some_ne_none l (h.symm.trans hl)).elim
  unknown l h := by
    rw [h] at hl
    cases hl
  displaced r h := absurd h (hd r)
  closing r h := absurd h (hc r)
  closed r struck h := absurd h (hs r struck)

theorem act {a : Act} {x : a.Answer} (h : β.Suits op) (ha : β.Acts op.licence a x β') :
    β'.Suits op := by
  cases ha with
  | lookUp _ | miss | roster | depose => exact h
  | hit => exact ⟨h.link, nofun, nofun, nofun, nofun⟩
  | displace hβ =>
    refine ⟨nofun, nofun, fun _ _ => ?_, nofun, nofun⟩
    have hl : β.link? ≠ none := by
      rcases hβ with rfl | ⟨r, rfl⟩ <;> exact Option.some_ne_none _
    obtain ⟨l, hl⟩ := Option.ne_none_iff_exists'.1 hl
    rw [h.link l hl]
    rfl
  | announce hβ =>
    rcases hβ with ⟨-, rfl⟩ | rfl <;> exact ⟨h.link, nofun, nofun, nofun, nofun⟩
  | advance hc =>
    refine ⟨nofun, nofun, nofun, fun r e => ?_, nofun⟩
    cases e
    exact hc
  | strikeClosed =>
    exact ⟨nofun, nofun, nofun, nofun, fun r struck e => by cases e; exact h.closed _ _ rfl⟩
  | enrol _ | strike | dismiss _ | discard | reject => exact of_none rfl nofun nofun nofun

theorem turn {r : Ref} {t : Turn} {x : t.Answer} (h : β.Suits op)
    (ht : β.Turns op.licence r t x β') : β'.Suits op := by
  cases ht with
  | handedBack => exact ⟨h.link, nofun, nofun, nofun, nofun⟩
  | shut =>
    exact ⟨nofun, nofun, nofun, nofun, fun r struck e => by cases e; exact h.closing _ rfl⟩
  | look => exact h
  | taken | superseded | depose | retire | keep => exact of_none rfl nofun nofun nofun

theorem afterGreeting {l : Nat} (h : (Burden.carries l none).Suits op) (o : Outcome) :
    (Burden.afterGreeting l o).Suits op := by
  cases o with
  | error s => exact ⟨h.link, nofun, nofun, nofun, nofun⟩
  | ok raw =>
    refine ⟨h.link, fun l' e => ?_, nofun, nofun, nofun⟩
    cases (Burden.carries.inj e).1
    exact h.unknown l rfl

end Burden.Suits

/-! ## Calls that go on -/

namespace Broker

/-- Whether a call goes on. -/
def IsActive {ω : Type} (b : Broker ω) (c : Nat) : Prop :=
  ∃ call, b.calls[c]? = some call ∧ call.isActive

instance {ω : Type} (b : Broker ω) (c : Nat) : Decidable (b.IsActive c) :=
  inferInstanceAs (Decidable (∃ call ∈ b.calls[c]?, call.isActive))

theorem IsActive.lt_length {ω : Type} {b : Broker ω} {c : Nat} (h : b.IsActive c) :
    c < b.calls.length :=
  (List.getElem?_eq_some_iff.1 h.choose_spec.1).1

/-- Every call goes on with a program that obeys under its burden, as it was asked to. -/
structure CallsOk (asked : Nat → Operation) (b : Broker Result) (β : Nat → Burden) : Prop where
  bears : ∀ (c : Nat) (call : Call Result), b.calls[c]? = some call →
    call.phase.Bears (asked c).licence call.refs (β c)
  genuine : ∀ (c : Nat) (call : Call Result), b.calls[c]? = some call →
    ∀ r ∈ call.refs, b.standing.Genuine r
  brings : ∀ (c : Nat) (call : Call Result), b.calls[c]? = some call →
    call.brings = (asked c).brings
  suits : ∀ c, (β c).Suits (asked c)
  idle : ∀ c, b.calls.length ≤ c → β c = .nothing

end Broker

/-- What acts answer is plausible. -/
theorem Broker.plausible_act {ω : Type} {b : Broker ω} {β : Nat → Burden}
    (h : b.standing.Sound β) (a : Act) : a.Plausible (b.act a).1 := by
  cases a with
  | find id =>
    intro r hr
    obtain ⟨hid, hg⟩ := h.keyed id r hr
    exact ⟨hid, hid ▸ h.primary_iff hg⟩
  | enrol kind id link => exact fun r hr => (h.keyed id r hr).1
  | dismiss kind id =>
    intro r hr
    simp only [act] at hr
    split at hr
    · rename_i r' hf
      split at hr
      · cases hr
        exact ⟨(h.keyed id r hf).1, ‹_›⟩
      · cases hr
    · cases hr
  | _ => trivial

/-! ## What a move can do -/

/-- The members that an act's answer refers to were made. -/
theorem Broker.genuine_of_refsOf {ω : Type} {b : Broker ω} {β : Nat → Burden}
    (h : b.standing.Sound β) (a : Act) {r : Ref} (hr : r ∈ refsOf a (b.act a).1) : b.standing.Genuine r := by
  cases a with
  | find id => exact (h.keyed id r (Option.mem_toList.1 hr)).2
  | enrol kind id link => exact (h.keyed id r (Option.mem_toList.1 hr)).2
  | reinstate r' => exact (h.keyed r'.id r (Option.mem_toList.1 hr)).2
  | roster =>
    obtain ⟨e, he, rfl⟩ := List.mem_map.1 hr
    exact (h.keyed_of_mem he).2
  | dismiss kind id =>
    have hr' : (b.act (.dismiss kind id)).1 = some r := Option.mem_toList.1 hr
    simp only [act] at hr'
    split at hr'
    · rename_i r' hf
      split at hr'
      · cases hr'
        exact (h.keyed id r hf).2
      · cases hr'
    · cases hr'
  | _ => cases hr

/-- The question who a connection is has one end at a time. -/
theorem Broker.Hears.ext {b : Broker Result} {c c' l l' : Nat} {o o' : Outcome} {m : Move Result}
    (h : b.Hears c l o m) (h' : b.Hears c' l' o' m) : c = c' ∧ l = l' ∧ o = o' := by
  cases m with
  | hear k =>
    obtain ⟨rfl, ⟨d, next, hp⟩, rest, hr⟩ := h
    obtain ⟨rfl, ⟨d', next', hp'⟩, rest', hr'⟩ := h'
    cases hp.symm.trans hp'
    cases hr.symm.trans hr'
    exact ⟨rfl, rfl, rfl⟩
  | giveUp k =>
    obtain ⟨rfl, ⟨d, next, hp⟩, rfl⟩ := h
    obtain ⟨rfl, ⟨d', next', hp'⟩, rfl⟩ := h'
    cases hp.symm.trans hp'
    exact ⟨rfl, rfl, rfl⟩
  | run k =>
    obtain ⟨rfl, ⟨next, hp⟩, -, rfl⟩ := h
    obtain ⟨rfl, ⟨next', hp'⟩, -, rfl⟩ := h'
    cases hp.symm.trans hp'
    exact ⟨rfl, rfl, rfl⟩
  | _ => exact h.elim

/-- The end of the question who a connection is can be seen. -/
theorem Broker.Hears.event? {b : Broker Result} {c l : Nat} {o : Outcome} {m : Move Result}
    (h : b.Hears c l o m) : Deed.event? ⟨b, m⟩ = some (.ended ⟨c, 0⟩ l o) := by
  cases m with
  | hear k =>
    obtain ⟨rfl, ⟨d, next, hp⟩, rest, hr⟩ := h
    simp only [Deed.event?, hp, hearing, hr, Option.map_some]
  | giveUp k =>
    obtain ⟨rfl, ⟨d, next, hp⟩, rfl⟩ := h
    simp only [Deed.event?, hp]
  | run k =>
    obtain ⟨rfl, ⟨next, hp⟩, hw, rfl⟩ := h
    simp only [Deed.event?, hp, writing, hw, Bool.false_eq_true, if_false]
  | _ => exact h.elim

/-- A call is in front of a queue and has its turn. -/
def Broker.Enters (b : Broker Result) (c : Nat) (r : Ref) (turn : Turn) (m : Move Result) : Prop :=
  m = .serve r.number ∧ ∃ t next, t.call = c ∧ (b.queue r.number).head? = some t ∧
    b.phase? c = some (.entering r turn next)

/-- One call at a time has its turn, and one turn. -/
theorem Broker.Enters.ext {b : Broker Result} {c c' : Nat} {r r' : Ref} {turn turn' : Turn}
    {m : Move Result} (h : b.Enters c r turn m) (h' : b.Enters c' r' turn' m) :
    c = c' ∧ r = r' ∧ turn = turn' := by
  obtain ⟨rfl, t, next, rfl, ht, hp⟩ := h
  obtain ⟨hnum, t', next', rfl, ht', hp'⟩ := h'
  rw [← Move.serve.inj hnum, ht] at ht'
  obtain rfl := Option.some.inj ht'
  rw [hp] at hp'
  cases hp'
  exact ⟨rfl, rfl, rfl⟩

/-- Nothing can be seen of a turn. -/
theorem Broker.Enters.event? {b : Broker Result} {c : Nat} {r : Ref} {turn : Turn}
    {m : Move Result} (h : b.Enters c r turn m) : Deed.event? ⟨b, m⟩ = none := by
  obtain ⟨rfl, t, next, rfl, ht, hp⟩ := h
  obtain ⟨rest, hq⟩ : ∃ rest, (b.member r.number).queue = t :: rest := by
    rw [queue] at ht
    rcases hq : (b.member r.number).queue with _ | ⟨t', rest⟩ <;> rw [hq] at ht <;> cases ht
    exact ⟨rest, rfl⟩
  rw [Deed.event?_serve hq]
  simp only [serving, queued?, hp]

/-- Moves that neither start a call, nor tell a call who its connection is, nor give it a turn. -/
structure Move.IsPlain (b : Broker Result) (m : Move Result) : Prop where
  start : ∀ program refs brings, m ≠ .start program refs brings
  hears : ∀ c l o, ¬b.Hears c l o m
  enters : ∀ c r turn, ¬b.Enters c r turn m

/-- A move of this kind neither starts a call, nor tells it who its connection is, nor gives it a
turn. -/
def Move.IsQuiet : Move Result → Prop
  | .start _ _ _ | .run _ | .serve _ | .hear _ | .giveUp _ => False
  | _ => True

theorem isPlain_of_isQuiet (b : Broker Result) (m : Move Result) (h : m.IsQuiet) :
    m.IsPlain b where
  start := by
    rintro program refs brings rfl
    exact h
  hears c l o hh := by
    cases m with
    | hear _ | giveUp _ | run _ => exact h
    | _ => exact hh
  enters c r turn he := by
    obtain ⟨rfl, -⟩ := he
    exact h

/-- What a move does to the standing of members and of connections, and to the burdens of calls. -/
inductive Effect (asked : Nat → Operation) (b : Broker Result) (m : Move Result)
    (β : Nat → Burden) : Standing → (Nat → Burden) → Prop where
  | still (hm : m.IsPlain b) : Effect asked b m β b.standing β
  | accepted (hm : m = .accept) : Effect asked b m β b.standing.accept β
  | begun (op : Operation) (hop : op = asked b.calls.length)
      (hm : m = .start op.program op.refs op.brings) (ha : op.Admits b)
      (hr : ∀ r ∈ op.refs, b.standing.Genuine r) :
      Effect asked b m β b.standing (update β b.calls.length op.burden)
  | finished (c : Nat) (hm : m = .run c ∧ ∃ x, b.phase? c = some (.running (.done x)))
      (h : (asked c).licence.leaves) :
      Effect asked b m β b.standing (update β c .nothing)
  | acted (c : Nat) (a : Act) (β' : Burden)
      (hm : m = .run c ∧ ∃ next, b.phase? c = some (.running (.act a next))) (ha : b.IsActive c)
      (hr : ∀ r ∈ a.member?, b.standing.Genuine r)
      (h : (β c).Acts (asked c).licence a (b.act a).1 β') :
      Effect asked b m β (b.act a).2.standing (update β c β')
  | turned (c : Nat) (r : Ref) (turn : Turn) (β' : Burden) (hm : b.Enters c r turn m)
      (ha : b.IsActive c) (hr : b.standing.Genuine r)
      (h : (β c).Turns (asked c).licence r turn (b.take r.number turn).1 β') :
      Effect asked b m β (b.take r.number turn).2.standing (update β c β')
  | greeted (c : Nat) (link : Nat) (o : Outcome) (hm : b.Hears c link o m)
      (h : β c = .carries link none) :
      Effect asked b m β b.standing (update β c (.afterGreeting link o))
  | failed (n : Nat) (ch : Channel) (t : Ticket) (s : Silence)
      (he : Deed.event? ⟨b, m⟩ = some (.ended t ch.link (.error s)))
      (hc : (b.member n).channel = some ch) : Effect asked b m β (b.standing.disconnect n) β
  | released (n : Nat) (hm : m = .release n) (h : b.isInUse n = false) :
      Effect asked b m β (b.standing.disconnect n) β

namespace Broker

variable {asked : Nat → Operation} {b : Broker Result} {β : Nat → Burden} {c : Nat}

/-! ## The calls after a move -/

theorem exists_call_of_phase {ω : Type} {b : Broker ω} {p : Phase ω} (h : b.phase? c = some p) :
    ∃ call, b.calls[c]? = some call ∧ call.phase = p := by
  simpa [phase?, Option.map_eq_some_iff] using h

namespace CallsOk

/-- Nothing happens to calls. -/
theorem congr {b' : Broker Result} (h : b.CallsOk asked β) (hc : b'.calls = b.calls)
    (hg : ∀ r, b.standing.Genuine r → b'.standing.Genuine r) : b'.CallsOk asked β where
  bears k call hk := h.bears k call (hc ▸ hk)
  genuine k call hk r hr := hg r (h.genuine k call (hc ▸ hk) r hr)
  brings k call hk := h.brings k call (hc ▸ hk)
  suits := h.suits
  idle k hk := h.idle k (hc ▸ hk)

/-- One call goes on. -/
theorem update {b' : Broker Result} {call : Call Result} {β' : Burden}
    (h : b.CallsOk asked β) (hc : b.calls[c]? = some call) (call' : Call Result)
    (hl : b'.calls.length = b.calls.length)
    (hc' : ∀ k, b'.calls[k]? = if k = c then some call' else b.calls[k]?)
    (hg : ∀ r, b.standing.Genuine r → b'.standing.Genuine r)
    (hr : ∀ r ∈ call'.refs, r ∈ call.refs ∨ b'.standing.Genuine r)
    (hbr : call'.brings = call.brings) (hs : β'.Suits (asked c))
    (hb : call'.phase.Bears (asked c).licence call'.refs β') :
    b'.CallsOk asked (update β c β') where
  bears k call₂ hk := by
    rw [hc'] at hk
    split at hk
    · rename_i hkc
      cases hk
      rw [hkc, Function.update_self]
      exact hb
    · rename_i hkc
      rw [Function.update_of_ne hkc]
      exact h.bears k call₂ hk
  genuine k call₂ hk r hrk := by
    rw [hc'] at hk
    split at hk
    · cases hk
      exact (hr r hrk).elim (fun hr => hg r (h.genuine c call hc r hr)) id
    · exact hg r (h.genuine k call₂ hk r hrk)
  brings k call₂ hk := by
    rw [hc'] at hk
    split at hk
    · rename_i hkc
      cases hk
      rw [hbr, hkc]
      exact h.brings c call hc
    · exact h.brings k call₂ hk
  suits k := by
    by_cases hkc : k = c
    · rw [hkc, Function.update_self]
      exact hs
    · rw [Function.update_of_ne hkc]
      exact h.suits k
  idle k hk := by
    have hkc : k ≠ c := by
      rintro rfl
      rw [hl, ← List.getElem?_eq_none_iff, hc] at hk
      cases hk
    rw [Function.update_of_ne hkc]
    exact h.idle k (hl ▸ hk)

/-- A call goes to another phase and comes across nobody new. -/
theorem setPhase {a : Broker Result} {call : Call Result} {β' : Burden} {q : Phase Result}
    (h : b.CallsOk asked β) (hc : b.calls[c]? = some call) (hc₁ : a.calls = b.calls)
    (hg : ∀ r, b.standing.Genuine r → a.standing.Genuine r) (hs : β'.Suits (asked c))
    (hb : q.Bears (asked c).licence call.refs β') :
    (a.setPhase c q).CallsOk asked (Function.update β c β') := by
  refine h.update hc { call with phase := q } ?_ (fun k => ?_) hg
    (fun r hr => .inl hr) rfl hs hb
  · simp [Broker.setPhase, hc₁]
  · rw [calls_setPhase, hc₁, hc]
    rfl

/-- A call goes to another phase with the burden it has. -/
theorem setPhase_same {a : Broker Result} {call : Call Result} {q : Phase Result}
    (h : b.CallsOk asked β) (hc : b.calls[c]? = some call) (hc₁ : a.calls = b.calls)
    (hg : ∀ r, b.standing.Genuine r → a.standing.Genuine r)
    (hb : q.Bears (asked c).licence call.refs (β c)) : (a.setPhase c q).CallsOk asked β := by
  have := h.setPhase hc hc₁ hg (h.suits c) hb
  rwa [Function.update_eq_self] at this

end CallsOk

/-! ## Every move has such an effect -/

/-- The state after a move: what it did is in the list, and all is as it should be. -/
def Follows (asked : Nat → Operation) (b : Broker Result) (m : Move Result) (β : Nat → Burden)
    (b' : Broker Result) : Prop :=
  ∃ β', Effect asked b m β b'.standing β' ∧ b'.CallsOk asked β' ∧ b'.InOrder

theorem isPlain_run {b : Broker Result} {c : Nat}
    (h : ∀ l next, b.phase? c = some (.running (.wait (.greet l) next)) → (b.link l).isWritable) :
    Move.IsPlain b (.run c) where
  start := nofun
  hears := by
    rintro k l o ⟨rfl, ⟨next, hp⟩, hw, -⟩
    rw [h l next hp] at hw
    cases hw
  enters k r turn he := by
    cases he.1

theorem not_waitsAt_running {ω : Type} (p : Program ω) (n i : Nat) :
    ¬(Phase.running p).WaitsAt n i := id

/-- A call does its next act. -/
theorem follows_act {a : Act} {next : a.Answer → Program Result} (ho : b.InOrder)
    (hc : b.CallsOk asked β) (hs : b.standing.Sound β)
    (hp : b.phase? c = some (.running (.act a next))) :
    Follows asked b (.run c) β (b.stepProgram c (.act a next)) := by
  obtain ⟨call, hcall, hph⟩ := exists_call_of_phase hp
  have hb := hc.bears c call hcall
  rw [hph] at hb
  obtain ⟨hmem, hnext⟩ := hb
  obtain ⟨β', hacts, hobeys⟩ := hnext (b.act a).1 (plausible_act hs a)
  have hg := hc.genuine c call hcall
  refine ⟨update β c β', .acted c a β' ⟨rfl, next, hp⟩ ⟨call, hcall, by rw [Call.isActive, hph]⟩
    (fun r hr => hg r (hmem r hr)) hacts, ?_, ?_⟩
  · refine hc.update hcall ⟨.running (next (b.act a).1),
      refsOf a (b.act a).1 ++ call.refs, call.brings⟩ ?_ (fun k => ?_)
      (fun r hr => genuine_act hr a) (fun r hr => ?_) rfl ((hc.suits c).act hacts) hobeys
    · simp [stepProgram, Broker.setPhase, Broker.meet]
    · simp only [stepProgram, calls_setPhase, calls_meet, calls_act, if_true, hcall,
        Option.map_some]
      split <;> rfl
    · rcases List.mem_append.1 hr with hr | hr
      · exact .inr (genuine_act (genuine_of_refsOf hs a hr) a)
      · exact .inl hr
  · exact ((ho.act a).meet c _).setPhase (by rw [phase?_meet, phase?_act, hp])
      (not_waitsAt_running _) (not_waitsAt_running _)

/-- A call begins to wait. -/
theorem follows_wait {w : Wait} {next : w.Answer → Program Result} (ho : b.InOrder)
    (hc : b.CallsOk asked β) (hp : b.phase? c = some (.running (.wait w next))) :
    Follows asked b (.run c) β (b.beginWait c w next) := by
  obtain ⟨call, hcall, hph⟩ := exists_call_of_phase hp
  have hb := hc.bears c call hcall
  rw [hph] at hb
  have hg := hc.genuine c call hcall
  cases w with
  | enter r turn =>
    have hm : Move.IsPlain b (.run c) := isPlain_run fun _ _ e => by cases hp.symm.trans e
    refine ⟨β, by simpa [beginWait] using Effect.still hm, ?_, ?_⟩
    · exact hc.setPhase_same hcall rfl (fun r hr => by simpa using hr) hb
    · exact ho.enter hp (not_waitsAt_running _) (by simpa using (hg r hb.1).1)
  | converse commands =>
    obtain ⟨hβ, hmem, hn⟩ := hb
    refine ⟨β, ?_, ?_, ?_⟩
    · rw [beginWait, standing_setPhase, standing_queueLegs]
      exact .still (isPlain_run fun _ _ e => by cases hp.symm.trans e)
    · refine hc.setPhase_same hcall (calls_queueLegs ..) (fun r hr => ?_)
        (Phase.Bears.phaseOf ?_)
      · rw [standing_queueLegs]
        exact hr
      · refine ⟨hβ, fun l hl => ?_, hn⟩
        obtain ⟨q, hq, rfl⟩ := List.mem_map.1 hl
        exact hmem q hq
    · exact ho.converse hp (not_waitsAt_running _) fun q hq => by
        simpa using (hg q.1 (hmem q hq)).1
  | greet link =>
    obtain ⟨hβ, hn⟩ := hb
    simp only [beginWait]
    by_cases hw : (b.link link).isWritable
    · rw [if_pos hw]
      have hs : (b.changeLink link (Link.write Command.identify.line)).standing = b.standing :=
        standing_changeLink b link rfl
      refine ⟨β, ?_, ?_, ?_⟩
      · rw [standing_setPhase, hs]
        exact .still (isPlain_run fun _ _ e => by cases hp.symm.trans e; exact hw)
      · exact hc.setPhase_same (a := b.changeLink link _) hcall rfl (fun r hr => hs ▸ hr)
          ⟨hβ, hn⟩
      · exact (ho.changeLink link _).setPhase hp (not_waitsAt_running _) fun _ _ => id
    · rw [if_neg hw]
      have hm : b.Hears c link (.error .reset) (.run c) :=
        ⟨rfl, ⟨next, hp⟩, Bool.eq_false_iff.2 hw, rfl⟩
      refine ⟨_, .greeted c link (.error .reset) hm hβ, ?_, ?_⟩
      · exact hc.setPhase hcall rfl (fun _ hr => hr)
          ((hβ ▸ hc.suits c).afterGreeting _) (hn _)
      · exact ho.setPhase hp (not_waitsAt_running _) (not_waitsAt_running _)

/-- A call goes on by itself. -/
theorem follows_run {p : Program Result} (ho : b.InOrder) (hc : b.CallsOk asked β)
    (hs : b.standing.Sound β) (hp : b.phase? c = some (.running p)) :
    Follows asked b (.run c) β (b.stepProgram c p) := by
  cases p with
  | done x =>
    obtain ⟨call, hcall, hph⟩ := exists_call_of_phase hp
    have hb := hc.bears c call hcall
    rw [hph] at hb
    have ho' : (b.setPhase c (.finished x)).InOrder :=
      ho.setPhase hp (not_waitsAt_running _) fun _ _ => id
    -- the call may leave what it has in hand, or it has nothing in hand
    by_cases hl : (asked c).licence.leaves
    · exact ⟨_, .finished c ⟨rfl, x, hp⟩ hl, hc.setPhase hcall rfl (fun _ hr => hr)
        (.of_none rfl nofun nofun nofun) ⟨.inl hl, fun _ => rfl⟩, ho'⟩
    · have hm : Move.IsPlain b (.run c) := isPlain_run fun _ _ e => by cases hp.symm.trans e
      exact ⟨β, .still hm, hc.setPhase_same hcall rfl (fun _ hr => hr)
        ⟨hb, fun h => absurd h hl⟩, ho'⟩
  | act a next => exact follows_act ho hc hs hp
  | wait w next => exact follows_wait ho hc hp

/-! ### Members that serve -/

/-- A command of a call is on its way or over; nothing else happens to calls. -/
theorem CallsOk.setLeg {a : Broker Result} {t : Ticket} {legs : List Leg}
    {next : List Outcome → Program Result} (h : b.CallsOk asked β)
    (hp : b.phase? t.call = some (.conversing legs next)) (hc₁ : a.calls = b.calls)
    (hg : ∀ r, b.standing.Genuine r → a.standing.Genuine r) (state : LegState) :
    (a.setLeg t state).CallsOk asked β := by
  obtain ⟨call, hcall, hph⟩ := exists_call_of_phase hp
  have hp₁ : a.phase? t.call = some (.conversing legs next) := by
    rw [← hp, phase?, phase?, hc₁]
  obtain ⟨hβ, hmem, hn⟩ := hph ▸ h.bears t.call call hcall
  rw [Broker.setLeg, hp₁]
  refine h.setPhase_same hcall hc₁ hg (Phase.Bears.phaseOf ⟨hβ, fun l hl => ?_, hn⟩)
  obtain ⟨i, hi⟩ := List.getElem?_of_mem hl
  rw [List.getElem?_modify] at hi
  obtain ⟨l', hl', rfl⟩ := Option.map_eq_some_iff.1 hi
  have := hmem l' (List.mem_of_getElem? hl')
  split <;> exact this

theorem standing_setLeg {ω : Type} (b : Broker ω) (t : Ticket) (state : LegState) :
    (b.setLeg t state).standing = b.standing := by
  unfold Broker.setLeg
  split <;> rfl

theorem standing_conclude {ω : Type} (b : Broker ω) (n : Nat) (t : Ticket) (o : Outcome) :
    (b.conclude n t o).standing = b.standing := by
  rw [conclude, standing_setLeg, standing_serveNext]

/-- A ticket is over, and the member keeps its connection. -/
theorem follows_conclude {m : Move Result} {n : Nat} {t : Ticket} {rest : List Ticket}
    {legs : List Leg} {next : List Outcome → Program Result} (ho : b.InOrder)
    (hc : b.CallsOk asked β) (hn : b.queue n = t :: rest)
    (hp : b.phase? t.call = some (.conversing legs next)) (hm : m.IsPlain b) (o : Outcome) :
    Follows asked b m β (b.conclude n t o) := by
  refine ⟨β, ?_, hc.setLeg (a := b.serveNext n) hp rfl (fun r hr => ?_) _, ho.conclude hn hp o⟩
  · rw [standing_conclude]
    exact .still hm
  · rw [standing_serveNext]
    exact hr

/-- An exchange is over. If there was no reply, that can be seen on the connection. -/
theorem follows_settle {a : Broker Result} {m : Move Result} {n : Nat} {t : Ticket}
    {rest : List Ticket} {legs : List Leg} {next : List Outcome → Program Result} {ch : Channel}
    {o : Outcome} (ho : a.InOrder) (hc : a.CallsOk asked β) (hs : a.standing = b.standing)
    (hn : a.queue n = t :: rest) (hp : a.phase? t.call = some (.conversing legs next))
    (hch : (b.member n).channel = some ch) (hm : m.IsPlain b)
    (he : ∀ s, o = .error s → Deed.event? ⟨b, m⟩ = some (.ended t ch.link (.error s))) :
    Follows asked b m β (a.settle n t o) := by
  refine ⟨β, ?_, ?_, ho.settle hn hp o⟩
  · cases o with
    | ok raw =>
      rw [settle, standing_conclude, hs]
      exact .still hm
    | error s =>
      rw [settle, standing_conclude, standing_disconnect, hs]
      exact .failed n ch t s (he s rfl) hch
  · cases o with
    | ok raw =>
      refine hc.setLeg (a := a.serveNext n) hp rfl (fun r hr => ?_) _
      rw [standing_serveNext]
      exact hr
    | error s =>
      refine hc.setLeg (a := (a.disconnect n).serveNext n) hp (a.calls_disconnect n)
        (fun r hr => ?_) _
      rw [standing_serveNext]
      exact genuine_disconnect hr n

/-- A call has its turn on a member. -/
theorem follows_turn {n : Nat} {t : Ticket} {rest : List Ticket} {r : Ref} {turn : Turn}
    {next : turn.Answer → Program Result} (ho : b.InOrder) (hc : b.CallsOk asked β)
    (hn : b.queue n = t :: rest) (hp : b.phase? t.call = some (.entering r turn next)) :
    Follows asked b (.serve n) β (((b.take n turn).2.serveNext n).setPhase t.call
      (.running (next (b.take n turn).1))) := by
  obtain ⟨call, hcall, hph⟩ := exists_call_of_phase hp
  obtain ⟨hr, hnext⟩ := hph ▸ hc.bears t.call call hcall
  obtain ⟨β', hturn, hobeys⟩ := hnext (b.take n turn).1
  -- the ticket stands for a turn on the member whose queue it is in
  obtain ⟨hnum, -⟩ := ho.waitsAt hn hp
  refine ⟨_, ?_, hc.setPhase (a := (b.take n turn).2.serveNext n) hcall ?_ (fun r hr => ?_)
    ((hc.suits t.call).turn hturn) hobeys, ho.turn hn hp _⟩
  · subst hnum
    rw [standing_setPhase, standing_serveNext]
    exact .turned t.call r turn β' ⟨rfl, t, next, rfl, by rw [hn]; rfl, hp⟩
      ⟨call, hcall, by rw [Call.isActive, hph]⟩ (hc.genuine t.call call hcall r hr) hturn
  · exact b.calls_take n turn
  · rw [standing_serveNext]
    exact genuine_take hr n turn

/-- A command is written, or it turns out that it cannot be. -/
theorem follows_beginExchange {n : Nat} {t : Ticket} {rest : List Ticket} {legs : List Leg}
    {r : Ref} {command : Command} {next : List Outcome → Program Result} (ho : b.InOrder)
    (hc : b.CallsOk asked β) (hn : b.queue n = t :: rest)
    (hp : b.phase? t.call = some (.conversing legs next))
    (hl : legs[t.leg]? = some ⟨r, command, .queued⟩) :
    Follows asked b (.serve n) β (b.beginExchange n t command) := by
  have hq : b.queued? t = some command := by simp only [queued?, hp, hl]
  have hm : Move.IsPlain b (.serve n) := by
    refine ⟨nofun, nofun, ?_⟩
    rintro c r' turn ⟨hnum, t', next', rfl, ht', hp'⟩
    rw [← Move.serve.inj hnum, hn] at ht'
    obtain rfl : t = t' := Option.some.inj ht'
    cases hp.symm.trans hp'
  simp only [beginExchange]
  split
  · exact follows_conclude ho hc hn hp hm _
  · rename_i ch hch
    split
    · exact follows_conclude ho hc hn hp hm _
    · rename_i hgen
      split
      · have hs : (b.changeLink ch.link (Link.write command.line)).standing = b.standing :=
          standing_changeLink b ch.link rfl
        refine ⟨β, ?_, hc.setLeg (a := b.changeLink ch.link _) hp rfl (fun r hr => hs ▸ hr) _,
          ho.talk hn hp hl rfl hch _ _⟩
        rw [standing_setLeg, hs]
        exact .still hm
      · rename_i hw
        refine follows_settle ho hc rfl hn hp hch hm fun s hs => ?_
        cases hs
        rw [Deed.event?_serve hn, serving_of_queued hq hch (Decidable.not_not.1 hgen),
          writing_of_not_writable hw]

/-! ### Exchanges that end -/

/-- What is known of an exchange that goes on. -/
theorem InOrder.exchange {ω : Type} {b : Broker ω} {t : Ticket} {n l d : Nat} (ho : b.InOrder)
    (ht : b.talking? t = some (n, l, d)) :
    ∃ legs next rest g, b.phase? t.call = some (.conversing legs next) ∧
      b.queue n = t :: rest ∧ (b.member n).channel = some ⟨l, g⟩ := by
  obtain ⟨legs, next, -, hp, -⟩ := leg_of_talking? ht
  obtain ⟨rest, hr⟩ := ho.front t n l d ht
  obtain ⟨g, hg⟩ := ho.channel t n l d ht
  exact ⟨legs, next, rest, g, hp, hr, hg⟩

/-- Something is read on a connection that a command was written on. -/
theorem follows_receive {leg n l d : Nat} {o : Outcome} {link : Link} (ho : b.InOrder)
    (hc : b.CallsOk asked β) (ht : b.talking? ⟨c, leg⟩ = some (n, l, d))
    (hrec : (b.link l).receive? = some (o, link)) :
    Follows asked b (.receive c leg) β
      ((b.changeLink l fun _ => link).settle n ⟨c, leg⟩ o) := by
  obtain ⟨legs, next, rest, g, hp, hn, hch⟩ := ho.exchange ht
  have hs : (b.changeLink l fun _ => link).standing = b.standing :=
    standing_changeLink b l (Link.closed_of_receive? hrec)
  refine follows_settle (a := b.changeLink l fun _ => link) (ho.changeLink l _)
    (hc.congr rfl fun r hr => hs ▸ hr) hs hn hp hch (isPlain_of_isQuiet b (.receive c leg) trivial)
      fun s hs => ?_
  cases hs
  rw [Deed.event?_receive ht, hearing, hrec, Option.map_some]

/-- The connection that a command was written on is about to be replaced. -/
theorem follows_supersede {leg n l d : Nat} (ho : b.InOrder) (hc : b.CallsOk asked β)
    (ht : b.talking? ⟨c, leg⟩ = some (n, l, d)) :
    Follows asked b (.supersede c leg) β (b.conclude n ⟨c, leg⟩ (.error .replaced)) := by
  obtain ⟨legs, next, rest, -, hp, hn, -⟩ := ho.exchange ht
  have hm : Move.IsPlain b (.supersede c leg) := isPlain_of_isQuiet b (.supersede c leg) trivial
  exact follows_conclude ho hc hn hp hm _

/-- A command has waited until its deadline. -/
theorem follows_expire {leg n l d : Nat} (ho : b.InOrder) (hc : b.CallsOk asked β)
    (ht : b.talking? ⟨c, leg⟩ = some (n, l, d)) :
    Follows asked b (.expire c leg) β (b.settle n ⟨c, leg⟩ (.error .timedOut)) := by
  obtain ⟨legs, next, rest, g, hp, hn, hch⟩ := ho.exchange ht
  refine follows_settle ho hc rfl hn hp hch (isPlain_of_isQuiet b (.expire c leg) trivial)
    fun s hs => ?_
  cases hs
  exact Deed.event?_expire ht

/-! ### Fresh connections that are asked who they are -/

/-- A call goes on with what a fresh connection has answered. -/
theorem follows_greeted {a : Broker Result} {m : Move Result} {l d : Nat}
    {next : Outcome → Program Result} {o : Outcome} (ho : a.InOrder) (hc : b.CallsOk asked β)
    (hp : b.phase? c = some (.greeting l d next)) (hs : a.standing = b.standing)
    (hcalls : a.calls = b.calls) (hm : b.Hears c l o m) :
    Follows asked b m β (a.setPhase c (.running (next o))) := by
  obtain ⟨call, hcall, hph⟩ := exists_call_of_phase hp
  obtain ⟨hβ, hn⟩ := hph ▸ hc.bears c call hcall
  have hp₁ : a.phase? c = some (.greeting l d next) := by rw [← hp, phase?, phase?, hcalls]
  refine ⟨_, ?_, hc.setPhase hcall hcalls (fun r hr => hs ▸ hr)
    ((hβ ▸ hc.suits c).afterGreeting o) (hn o), ?_⟩
  · rw [standing_setPhase, hs]
    exact .greeted c l o hm hβ
  · exact ho.setPhase hp₁ (fun _ _ => id) (not_waitsAt_running _)

/-! ### Calls and connections that come and go -/

theorem follows_abandon {call : Call Result} (ho : b.InOrder) (hc : b.CallsOk asked β)
    (hcall : b.calls[c]? = some call) (hbrings : call.brings = none) :
    Follows asked b (.abandon c) β ((b.withdraw c).setPhase c .abandoned) := by
  have hs := b.standing_withdraw c
  refine ⟨β, ?_, ?_, ho.abandon (p := call.phase) (by rw [phase?, hcall]; rfl)⟩
  · rw [standing_setPhase, hs]
    exact .still (isPlain_of_isQuiet b (.abandon c) trivial)
  · refine hc.setPhase_same (a := b.withdraw c) hcall rfl (fun r hr => hs ▸ hr) ?_
    -- whoever was handed a connection cannot be given up, so there is none in hand
    have hbr : (asked c).brings = none := (hc.brings c call hcall).symm.trans hbrings
    rcases hl : (β c).link? with _ | l
    · exact hl
    · rw [(hc.suits c).link l hl] at hbr
      cases hbr

/-- A member that nobody refers to is not talked to. -/
theorem CallsOk.isInUse_of_talking? {t : Ticket} {n l d : Nat} (h : b.CallsOk asked β)
    (ht : b.talking? t = some (n, l, d)) : b.isInUse n := by
  obtain ⟨legs, next, leg, hp, hl, hn, -⟩ := leg_of_talking? ht
  obtain ⟨call, hcall, hph⟩ := exists_call_of_phase hp
  obtain ⟨-, hmem, -⟩ := hph ▸ h.bears t.call call hcall
  simp only [isInUse, Bool.or_eq_true, List.any_eq_true, Bool.and_eq_true]
  refine .inr ⟨call, List.mem_of_getElem? hcall, ?_, leg.member,
    hmem leg (List.mem_of_getElem? hl), by simpa using hn⟩
  rw [Call.isActive, hph]

theorem follows_release {n : Nat} (ho : b.InOrder) (hc : b.CallsOk asked β)
    (hu : b.isInUse n = false) : Follows asked b (.release n) β (b.disconnect n) := by
  refine ⟨β, ?_, hc.congr (b.calls_disconnect n) (fun r hr => genuine_disconnect hr n),
    ho.release fun t l d ht => ?_⟩
  · rw [standing_disconnect]
    exact .released n rfl hu
  · rw [hc.isInUse_of_talking? ht] at hu
    cases hu

/-- What was at a place is still there when something is added at the end. -/
theorem getElem?_concat_ne {α : Type} (l : List α) (x : α) {k : Nat} (h : k ≠ l.length) :
    (l ++ [x])[k]? = l[k]? := by
  rcases Nat.lt_or_gt_of_ne h with hlt | hgt
  · exact List.getElem?_append_left hlt
  · rw [List.getElem?_eq_none (by rw [List.length_append, List.length_singleton]; omega),
      List.getElem?_eq_none (Nat.le_of_lt hgt)]

/-- The calls that there were, and the new one. -/
theorem getElem?_concat_cases {α : Type} {l : List α} {x y : α} {k : Nat}
    (h : (l ++ [x])[k]? = some y) : k < l.length ∧ l[k]? = some y ∨ k = l.length ∧ y = x := by
  rcases Nat.lt_trichotomy k l.length with hlt | rfl | hgt
  · rw [List.getElem?_append_left hlt] at h
    exact .inl ⟨hlt, h⟩
  · rw [List.getElem?_concat_length] at h
    exact .inr ⟨rfl, (Option.some.inj h).symm⟩
  · rw [List.getElem?_eq_none (by simp; omega)] at h
    cases h

theorem CallsOk.start {op : Operation} (h : b.CallsOk asked β) (hop : op = asked b.calls.length)
    (hr : ∀ r ∈ op.refs, b.standing.Genuine r) :
    CallsOk asked { b with calls := b.calls ++ [⟨.running op.program, op.refs, op.brings⟩] }
      (Function.update β b.calls.length op.burden) where
  bears k call hk := by
    rcases getElem?_concat_cases hk with ⟨hlt, hk⟩ | ⟨rfl, rfl⟩
    · rw [Function.update_of_ne (Nat.ne_of_lt hlt)]
      exact h.bears k call hk
    · rw [Function.update_self, ← hop]
      exact op.obeys
  genuine k call hk r hrk := by
    rcases getElem?_concat_cases hk with ⟨-, hk⟩ | ⟨-, rfl⟩
    · exact h.genuine k call hk r hrk
    · exact hr r hrk
  brings k call hk := by
    rcases getElem?_concat_cases hk with ⟨-, hk⟩ | ⟨rfl, rfl⟩
    · exact h.brings k call hk
    · rw [← hop]
  suits k := by
    by_cases hk : k = b.calls.length
    · rw [hk, Function.update_self, ← hop]
      exact .start op
    · rw [Function.update_of_ne hk]
      exact h.suits k
  idle k hk := by
    rw [List.length_append, List.length_singleton] at hk
    rw [Function.update_of_ne (by omega)]
    exact h.idle k (by omega)

/-- A handle that comes from somewhere is that of a member. -/
theorem CallsOk.genuine_of_knows {r : Ref} (h : b.CallsOk asked β) (hs : b.standing.Sound β)
    (hr : b.Knows r) : b.standing.Genuine r := by
  rcases hr with ⟨e, he, rfl⟩ | ⟨call, hcall, hr⟩
  · exact (hs.keyed_of_mem he).2
  · obtain ⟨k, hk⟩ := List.getElem?_of_mem hcall
    exact h.genuine k call hk r hr

/-! ### All moves -/

/-- Every move that starts no more than what calls are asked to do has one of the effects, and all
stays as it should be. -/
theorem follows {m : Move Result} {b' : Broker Result} (ho : b.InOrder) (hc : b.CallsOk asked β)
    (hs : b.standing.Sound β) (h : Operation.Starts asked b m) (hm : b.step m = some b') :
    Follows asked b m β b' := by
  cases makes_of_step hm with
  | starts program refs brings =>
    obtain ⟨hadm, rfl, rfl, rfl⟩ := h
    have hr : ∀ r ∈ (asked b.calls.length).refs, b.standing.Genuine r := fun r hr =>
      hc.genuine_of_knows hs (hadm.1 r hr)
    exact ⟨_, .begun _ rfl rfl hadm hr, hc.start rfl hr, ho.start ..⟩
  | runs hp => exact follows_run ho hc hs hp
  | turns hn hp => exact follows_turn ho hc hn hp
  | begins hn hp hl => exact follows_beginExchange ho hc hn hp hl
  | receives ht hr => exact follows_receive ho hc ht hr
  | supersedes ht _ _ => exact follows_supersede ho hc ht
  | expires ht _ => exact follows_expire ho hc ht
  | @hears c l d next o rest hp hr =>
    exact follows_greeted (a := b.changeLink l fun _ => rest) (ho.changeLink l _) hc hp
      (standing_changeLink b l (Link.closed_of_receive? hr)) rfl ⟨rfl, ⟨d, next, hp⟩, rest, hr⟩
  | @givesUp c l d next hp _ => exact follows_greeted ho hc hp rfl rfl ⟨rfl, ⟨d, next, hp⟩, rfl⟩
  | abandons hcall _ hbrings => exact follows_abandon ho hc hcall hbrings
  | accepts =>
    refine ⟨β, ?_, hc.congr rfl fun r hr => ?_,
      ho.congr (fun _ => rfl) (fun _ => rfl) fun _ _ => id⟩
    · rw [standing_accept]
      exact .accepted rfl
    · rw [standing_accept]
      exact hr
  | signals l s =>
    have hs' : (b.changeLink l (Link.arrive s)).standing = b.standing :=
      standing_changeLink b l (Link.closed_arrive s _)
    refine ⟨β, ?_, hc.congr rfl fun r hr => hs' ▸ hr, ho.changeLink l _⟩
    rw [hs']
    exact .still (isPlain_of_isQuiet b (.signal l s) trivial)
  | releases _ hu => exact follows_release ho hc hu
  | passes time =>
    exact ⟨β, .still (isPlain_of_isQuiet b (.pass time) trivial), hc.congr rfl fun _ hr => hr,
      ho.congr (fun _ => rfl) (fun _ => rfl) fun _ _ => id⟩

end Broker

end WorkerBroker
