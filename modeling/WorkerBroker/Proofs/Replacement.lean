import WorkerBroker.Proofs.Incidents
/-!
# Connections that take each other's place

Several calls give the same member a connection, or close it, at the same time. Each of them first
advances the generation of the member and only then waits for its turn on it, so the turns may come
in another order. Which connection stays does not depend on that: it is the one whose call has
advanced the generation last, since every other one finds the generation changed and is dropped
(`UpToDate`, kept by every move as `UpToDate.step` says). Once there is a call that closes the
member, it is retired when that call is over, and whatever is offered to it from then on is handed
back.

`Broker.replacement_converges` puts this together with what each call has brought about when it is
over (`Broker.Run.fate`). Commands may be on their way all the while. One that is written on the
connection that has been installed can end without a reply while other calls still wait for their
turns; then the connection is lost and none takes its place
(`Broker.no_connection_after_replacement`).
-/

namespace WorkerBroker

open Function (update)

open Broker

/-! ## What is left of a call -/

/-- A connection has been announced, and waits for its turn. -/
def offering (r : Ref) (link generation : Nat) : Program Result :=
  .wait (.enter r (.offer generation link)) fun o => .done (.offered o)

/-- A member is about to be shut. -/
def shutting (r : Ref) : Program Result :=
  .wait (.enter r .shut) fun _ => .done .done

namespace Operation

variable {steps : List Step} {q : Program Result} {r : Ref}

theorem left_of_replaceConnection {l : Nat}
    (h : (replaceConnection r l).program.Leads steps q) :
    q = .act (.advance r) (offering r l) ∨ (∃ g, q = offering r l g) ∨ ∃ o, q = .done (.offered o) := by
  cases h with
  | refl => exact .inl rfl
  | act h =>
    cases h with
    | refl => exact .inr (.inl ⟨_, rfl⟩)
    | wait h =>
      obtain ⟨-, rfl⟩ := h.of_done
      exact .inr (.inr ⟨_, rfl⟩)

theorem left_of_close (h : (close r).program.Leads steps q) :
    q = .act (.advance r) (fun _ => shutting r) ∨ q = shutting r ∨ q = .done .done := by
  cases h with
  | refl => exact .inl rfl
  | act h =>
    cases h with
    | refl => exact .inr (.inl rfl)
    | wait h =>
      obtain ⟨-, rfl⟩ := h.of_done
      exact .inr (.inr rfl)

theorem left_of_execute {command : Command} (h : (execute r command).program.Leads steps q) :
    (∃ commands next, q = .wait (.converse commands) next) ∨ ∃ x, q = .done x := by
  rw [program, Program.execute] at h
  split at h
  · cases h with
    | refl => exact .inl ⟨_, _, rfl⟩
    | wait h =>
      obtain ⟨-, rfl⟩ := h.of_done
      exact .inr ⟨_, rfl⟩
  · obtain ⟨-, rfl⟩ := h.of_done
    exact .inr ⟨_, rfl⟩

end Operation

namespace Broker

variable {b b' : Broker Result} {m : Move Result} {c : Nat}

/-- A call that waits for its turn on a member has it, or goes on waiting, or is given up. -/
theorem left?_of_enter (ho : b.InOrder) (hm : b.step m = some b') {r : Ref} {turn : Turn}
    {next : turn.Answer → Program Result} (hl : b.left? c = some (.wait (.enter r turn) next)) :
    b'.left? c = b.left? c ∨ m = .abandon c ∧ b'.left? c = none ∨
      b.Enters c r turn m ∧ b'.left? c = some (next (b.take r.number turn).1) := by
  obtain ⟨p, hp, hpl⟩ := Option.bind_eq_some_iff.1 hl
  obtain ⟨q, hq, rfl | ⟨hmover, refs, ha⟩⟩ := phase_step hm hp
  · exact .inl (by rw [left?_of_phase hq, hl, hpl])
  · cases ha with
    | enters => exact .inl (by rw [left?_of_phase hq, hl, ← hpl]; rfl)
    | leaves => exact .inr (.inl ⟨rfl, left?_of_phase hq⟩)
    | @turns n r' turn' next' =>
      cases hpl
      rw [mover?, Option.map_eq_some_iff] at hmover
      obtain ⟨t, ht, rfl⟩ := hmover
      obtain ⟨rfl, -⟩ := (waits_of_phase hp).1 ((ho.mem_iff n t).1 (List.mem_of_mem_head? ht))
      exact .inr (.inr ⟨⟨rfl, t, next, rfl, ht, hp⟩, left?_of_phase hq⟩)
    | _ => cases hpl

/-- A call that is to act does so, or not yet, or is given up. -/
theorem left?_of_act (hm : b.step m = some b') {a : Act} {next : a.Answer → Program Result}
    (hl : b.left? c = some (.act a next)) :
    b'.left? c = b.left? c ∨ m = .abandon c ∧ b'.left? c = none ∨
      m = .run c ∧ b'.left? c = some (next (b.act a).1) := by
  obtain ⟨p, hp, hpl⟩ := Option.bind_eq_some_iff.1 hl
  obtain ⟨q, hq, rfl | ⟨hmover, refs, ha⟩⟩ := phase_step hm hp
  · exact .inl (by rw [left?_of_phase hq, hl, hpl])
  · cases ha with
    | leaves => exact .inr (.inl ⟨rfl, left?_of_phase hq⟩)
    | acts =>
      cases hpl
      exact .inr (.inr ⟨rfl, left?_of_phase hq⟩)
    | _ => cases hpl

/-- A call that is over stays as it is, unless it is given up before anybody knows. -/
theorem left?_of_done (hm : b.step m = some b') {x : Result}
    (hl : b.left? c = some (.done x)) : b'.left? c = b.left? c ∨ m = .abandon c ∧ b'.left? c = none := by
  obtain ⟨p, hp, hpl⟩ := Option.bind_eq_some_iff.1 hl
  obtain ⟨q, hq, rfl | ⟨hmover, refs, ha⟩⟩ := phase_step hm hp
  · exact .inl (by rw [left?_of_phase hq, hl, hpl])
  · cases ha with
    | finishes => exact .inl (by rw [left?_of_phase hq, hl, ← hpl]; rfl)
    | leaves => exact .inr ⟨rfl, left?_of_phase hq⟩
    | _ => cases hpl

/-- A call that had nothing left to do has just been started. -/
theorem left?_of_none (hm : b.step m = some b') (hl : b.left? c = none) {q : Program Result}
    (hq : b'.left? c = some q) :
    c = b.calls.length ∧ ∃ refs brings, m = .start q refs brings := by
  obtain ⟨p, hp, hpl⟩ := Option.bind_eq_some_iff.1 hq
  obtain ⟨call, hcall, rfl⟩ := exists_call_of_phase hp
  rcases call_of_step hm hcall with ⟨call', hcall'⟩ | ⟨rfl, program, refs, brings, rfl, rfl⟩
  · have hp' : b.phase? c = some call'.phase := by rw [phase?, hcall']; rfl
    rw [left?_of_phase hp', Phase.left?_eq_none] at hl
    rw [hl] at hp'
    rw [left?_of_phase (abandoned_step hm hp')] at hq
    cases hq
  · cases hpl
    exact ⟨rfl, refs, brings, rfl⟩

/-- Whoever was handed a connection is not given up. -/
theorem CallsOk.not_abandoned {asked : Nat → Operation} {β : Nat → Burden} {l : Nat}
    (hc : b.CallsOk asked β) (hm : b.step m = some b') (hbr : (asked c).brings = some l) :
    m ≠ .abandon c := by
  rintro rfl
  cases makes_of_step hm with
  | abandons hcall _ hnone =>
    have := hc.brings c _ hcall
    rw [hbr, hnone] at this
    cases this

end Broker

/-! ## What a call has brought about -/

/-- What is true of a connection that was offered, and of a member that was shut, once the call is
over. -/
def Operation.Fate (s : Standing) : Operation → Result → Prop
  | replaceConnection r l, .offered .taken =>
    (∃ g, (s.member r.number).channel = some ⟨l, g⟩) ∨ s.IsClosed l
  | replaceConnection _ l, .offered .superseded => s.IsClosed l
  | replaceConnection r _, .offered .handedBack => s.Genuine r ∧ (s.member r.number).retired
  | close r, _ => s.Genuine r ∧ (s.member r.number).retired
  | _, _ => True

namespace Broker

variable {asked : Nat → Operation} {b b' : Broker Result} {m : Move Result}
  {β β' : Nat → Burden} {c : Nat} {timeout : Nat} {past : List (Deed Result)}

/-- What a call has brought about lasts. -/
theorem Stride.fate (h : Stride asked b m β b' β') {op : Operation} {x : Result}
    (hf : op.Fate b.standing x) : op.Fate b'.standing x := by
  have hretired : ∀ {r : Ref}, b.standing.Genuine r ∧ (b.standing.member r.number).retired →
      b'.standing.Genuine r ∧ (b'.standing.member r.number).retired :=
    fun hr => ⟨h.effect.genuine hr.1, h.retired hr.1 hr.2⟩
  cases op with
  | replaceConnection r l =>
    cases x with
    | offered o =>
      cases o with
      | taken =>
        rcases hf with ⟨g, hch⟩ | hclosed
        · exact (h.effect.closes h.before.held hch).imp_left fun h => ⟨g, h⟩
        · exact .inr (h.effect.isClosed hclosed)
      | superseded => exact h.effect.isClosed hf
      | handedBack => exact hretired hf
    | _ => trivial
  | close r => exact hretired hf
  | _ => trivial

/-- A connection that is offered is taken, closed, or handed back. -/
theorem Stride.fate_of_offer (h : Stride asked b m β b' β') {r : Ref} {g l : Nat}
    (he : b.Enters c r (.offer g l) m) :
    (Operation.replaceConnection r l).Fate b'.standing
      (.offered (b.take r.number (.offer g l)).1) := by
  obtain ⟨β₁, hturn, hs, -⟩ := h.turned he
  have htrue := h.before.sound.burdens c
  have hhand : ∀ {l'}, (β c).link? = some l' → b.standing.IsOpen l' := h.before.held.hand c _
  generalize hβ : β c = β₀ at hturn htrue hhand
  generalize hx : (b.take r.number (.offer g l)).1 = x at hturn
  rw [hs]
  cases hturn with
  | taken =>
    obtain ⟨-, -, hst⟩ := take_offer_taken hx
    refine .inl ⟨g, ?_⟩
    rw [hst, Standing.member_change_self (by simpa using htrue.1)]
  | superseded =>
    rw [(take_offer_superseded hx).2.2, standing_hangUp]
    exact Standing.isClosed_hangUp (hhand rfl)
  | handedBack =>
    obtain ⟨hret, hst⟩ := take_offer_handedBack hx
    rw [hst]
    exact ⟨htrue, by rwa [retired_standing]⟩

/-- A member that is shut is retired. -/
theorem Stride.fate_of_shut (h : Stride asked b m β b' β') {r : Ref}
    (he : b.Enters c r .shut m) (x : Result) : (Operation.close r).Fate b'.standing x := by
  obtain ⟨β₁, hturn, hs, -⟩ := h.turned he
  have htrue := h.before.sound.burdens c
  have hg : b.standing.Genuine r := by
    generalize β c = β₀ at hturn htrue
    generalize (b.take r.number .shut).1 = x at hturn
    cases hturn with
    | shut => exact htrue
    | depose => exact htrue.1
  refine ⟨h.effect.genuine hg, ?_⟩
  rw [hs, standing_shut, Standing.member_change_self (by simpa using hg.1)]

/-- A call goes the ways of the operation that it was asked for. -/
theorem Run.left (hr : Run (fun _ => Operation.Starts asked) (fresh timeout) past b)
    {q : Program Result} (hq : b.left? c = some q) :
    ∃ steps, (asked c).program.Leads steps q := by
  obtain ⟨steps, q', hq', hpath, -⟩ :=
    hr.hasCome (f := fun c => (asked c).program) (fun _ _ _ _ h => h.2.1) hq
  obtain rfl := Option.some.inj (hq.symm.trans hq')
  exact ⟨steps, hpath⟩

/-- The calls that are over after a move have brought about what goes with it, if those before it
have. -/
theorem Stride.fates (h : Stride asked b m β b' β')
    (hr : Run (fun _ => Operation.Starts asked) (fresh timeout) past b)
    (ha : Operation.Starts asked b m)
    (hall : ∀ c x, b.left? c = some (.done x) → (asked c).Fate b.standing x) {x : Result}
    (hx : b'.left? c = some (.done x)) : (asked c).Fate b'.standing x := by
  have hgone : ¬(m = .abandon c ∧ b'.left? c = none) := fun e => by cases hx.symm.trans e.2
  have hsame : b'.left? c = b.left? c → (asked c).Fate b'.standing x :=
    fun e => h.fate (hall c x (e ▸ hx))
  rcases hl : b.left? c with _ | q
  · obtain ⟨rfl, refs, brings, rfl⟩ := left?_of_none h.step hl hx
    have hp : .done x = (asked b.calls.length).program := ha.2.1
    -- neither of the operations that bring something about is over at once
    cases hop : asked b.calls.length with
    | replaceConnection r l | close r => rw [hop] at hp; cases hp
    | _ => trivial
  · obtain ⟨steps, hq⟩ := hr.left hl
    cases hop : asked c with
    | replaceConnection r l =>
      rw [hop] at hq hsame
      rcases Operation.left_of_replaceConnection hq with rfl | ⟨g, rfl⟩ | ⟨o, rfl⟩
      · rcases left?_of_act h.step hl with e | e | ⟨-, e⟩
        · exact hsame e
        · exact absurd e hgone
        · cases hx.symm.trans e
      · rcases left?_of_enter h.before.order h.step hl with e | e | ⟨he, e⟩
        · exact hsame e
        · exact absurd e hgone
        · cases hx.symm.trans e
          exact h.fate_of_offer he
      · exact (left?_of_done h.step hl).elim hsame fun e => absurd e hgone
    | close r =>
      rw [hop] at hq hsame
      rcases Operation.left_of_close hq with rfl | rfl | rfl
      · rcases left?_of_act h.step hl with e | e | ⟨-, e⟩
        · exact hsame e
        · exact absurd e hgone
        · cases hx.symm.trans e
      · rcases left?_of_enter h.before.order h.step hl with e | e | ⟨he, e⟩
        · exact hsame e
        · exact absurd e hgone
        · exact h.fate_of_shut he x
      · exact (left?_of_done h.step hl).elim hsame fun e => absurd e hgone
    | _ => trivial

/-- Whatever a call has come to, it has brought about what goes with it. -/
theorem Run.fate (hr : Run (fun _ => Operation.Starts asked) (fresh timeout) past b) {x : Result}
    (hx : b.left? c = some (.done x)) : (asked c).Fate b.standing x := by
  obtain ⟨β, -, -, hfate⟩ := hr.course
    (P := fun past b _ => Run (fun _ => Operation.Starts asked) (fresh timeout) past b ∧
      ∀ c x, b.left? c = some (.done x) → (asked c).Fate b.standing x)
    (fun _ _ _ h => h) (Course.fresh asked timeout) ⟨.nil, nofun⟩
    fun past b m β b' β' h ha hm =>
      ⟨h.1.snoc m ha hm.step, fun c x hx => hm.fates h.1 ha h.2 hx⟩
  exact hfate c x hx

end Broker

/-! ## The connection that was announced last -/

/-- How far the connection is that was announced to a member last. -/
inductive Latest (b : Broker Result) (β : Nat → Burden) (r : Ref) (c l : Nat) (broken : Prop) :
    Prop where
  /-- it waits for its turn -/
  | announced (hl : b.left? c = some (offering r l (b.standing.member r.number).generation))
  | installed
      (hn : ∀ d l', β d ≠ .announced r (b.standing.member r.number).generation l')
      (h : (b.standing.member r.number).channel =
        some ⟨l, (b.standing.member r.number).generation⟩)
  /-- it was installed, and an exchange on it has failed -/
  | lost (hn : ∀ d l', β d ≠ .announced r (b.standing.member r.number).generation l')
      (h : (b.standing.member r.number).channel = none) (hl : b.standing.IsClosed l)
      (hb : broken)

/-- An exchange on a connection has come to no reply. -/
def HasFailed (past : List (Deed Result)) (l : Nat) : Prop :=
  ∃ t s, .ended t l (.error s) ∈ log past

theorem HasFailed.snoc {past : List (Deed Result)} {l : Nat} (h : HasFailed past l)
    (d : Deed Result) : HasFailed (past ++ [d]) l := by
  obtain ⟨t, s, h⟩ := h
  exact ⟨t, s, by rw [log_snoc]; exact List.mem_append_left _ h⟩

theorem Latest.mono {b : Broker Result} {β : Nat → Burden} {r : Ref} {c l : Nat}
    {broken broken' : Prop} (h : Latest b β r c l broken) (hb : broken → broken') :
    Latest b β r c l broken' := by
  cases h with
  | announced hl => exact .announced hl
  | installed hn h => exact .installed hn h
  | lost hn h hl hbroken => exact .lost hn h hl (hb hbroken)

/-- The member lives, and whoever has advanced its generation last offers it a connection. -/
structure UpToDate (asked : Nat → Operation) (first : Nat) (past : List (Deed Result))
    (b : Broker Result) (β : Nat → Burden) (r : Ref) : Prop where
  lives : (b.standing.member r.number).retired = false
  latest : ∀ c, (advancers r past).getLast? = some c →
    ∃ l, first ≤ c ∧ asked c = .replaceConnection r l ∧ Latest b β r c l (HasFailed past l)

namespace Broker

variable {asked : Nat → Operation} {b b' : Broker Result} {m : Move Result}
  {β β' : Nat → Burden} {c : Nat} {past : List (Deed Result)} {r : Ref}

/-- A call that waits to offer a connection has announced it. -/
theorem Course.announced_of_offering (h : Course asked b β) {g l : Nat}
    (hl : b.left? c = some (offering r l g)) : β c = .announced r g l := by
  have hturns : (∃ β₁, (β c).Turns (asked c).licence r (.offer g l) .taken β₁) →
      β c = .announced r g l := by
    rintro ⟨β₁, ht⟩
    generalize β c = β₀ at ht
    cases ht
    rfl
  obtain ⟨p, hp, hpl⟩ := Option.bind_eq_some_iff.1 hl
  obtain ⟨call, hcall, rfl⟩ := exists_call_of_phase hp
  have hb := h.calls.bears c call hcall
  cases hph : call.phase with
  | running q =>
    rw [hph] at hb hpl
    cases hpl
    exact hturns ((hb.2 .taken).imp fun _ => And.left)
  | entering r' turn next =>
    rw [hph] at hb hpl
    cases hpl
    exact hturns ((hb.2 .taken).imp fun _ => And.left)
  | _ =>
    rw [hph] at hpl
    cases hpl

/-- Nobody announces a connection with a generation that nobody has announced one with, unless the
generation of the member is advanced. -/
theorem Stride.nobody_announces (hm : Stride asked b m β b' β') {g : Nat}
    (ha : Deed.advancer? r ⟨b, m⟩ = none) (hn : ∀ d l, β d ≠ .announced r g l) :
    ∀ d l, β' d ≠ .announced r g l := by
  intro d l hd
  rcases hm.announced hd with hold | ⟨hadv, -⟩
  · exact hn d l hold
  · cases ha.symm.trans hadv

/-- A call that waits to offer a connection goes on waiting as long as it does not have its turn. -/
theorem Stride.offering (hm : Stride asked b m β b' β') {g l : Nat}
    (hc : asked c = .replaceConnection r l) (hl : b.left? c = some (offering r l g))
    (he : ¬b.Enters c r (.offer g l) m) : b'.left? c = some (WorkerBroker.offering r l g) := by
  rcases left?_of_enter hm.before.order hm.step hl with e | e | ⟨e, -⟩
  · rw [e, hl]
  · exact absurd e.1 (hm.before.calls.not_abandoned hm.step (by rw [hc]; rfl))
  · exact absurd e he

end Broker

section

variable {asked : Nat → Operation} {b b' : Broker Result} {m : Move Result}
  {β β' : Nat → Burden} {c : Nat} {past : List (Deed Result)} {r : Ref}

/-- The connection that was announced last is where it was, when the member is spared. -/
theorem Latest.spared {l : Nat} (h : Latest b β r c l (HasFailed past l))
    (hc : asked c = .replaceConnection r l) (hm : Stride asked b m β b' β')
    (hs : b'.standing.member r.number = b.standing.member r.number)
    (ha : Deed.advancer? r ⟨b, m⟩ = none) (he : ∀ c turn, ¬b.Enters c r turn m) :
    Latest b' β' r c l (HasFailed (past ++ [⟨b, m⟩]) l) := by
  cases h with
  | announced hl =>
    rw [← hs] at hl
    exact .announced (hm.offering hc hl (he c _))
  | installed hn h =>
    rw [← hs] at hn h
    exact .installed (hm.nobody_announces ha hn) h
  | lost hn h hl hb =>
    rw [← hs] at hn h
    exact .lost (hm.nobody_announces ha hn) h (hm.effect.isClosed hl) (hb.snoc _)

/-- A connection gets the new generation of its member. -/
theorem latest_of_advance {l : Nat} (hm : Stride asked b m β b' β')
    (hr : b.standing.Genuine r) (ha : Deed.advancer? r ⟨b, m⟩ = some c) (broken : Prop)
    (hl : b.left? c = some (.act (.advance r) (offering r l))) : Latest b' β' r c l broken := by
  refine .announced ?_
  rw [generation_of_advancer? hm.step hr ha, generation_standing]
  obtain ⟨rfl, next, hp⟩ := Deed.advancer?_eq_some.1 ha
  rw [left?_of_phase hp] at hl
  cases hl
  obtain ⟨-, hb'⟩ := step_of_running hp rfl hm.step nofun
  have hp' : b'.phase? c = some (.running (offering r l ((b.member r.number).generation + 1))) := by
    rw [hb']
    exact phase?_setPhase_self (((phase?_meet ..).trans (b.phase?_act (.advance r) c)).trans hp)
  exact left?_of_phase hp'

/-- Of the connections that were announced one has its turn. -/
theorem Latest.offered {k l l' g : Nat} {broken : Prop} (h : Latest b β r c l broken)
    (hc : asked c = .replaceConnection r l)
    (hm : Stride asked b m β b' β') (hn : b.standing.Numbered β)
    (hlives : (b.standing.member r.number).retired = false)
    (he : b.Enters k r (.offer g l') m) : Latest b' β' r c l broken := by
  obtain ⟨β₁, hturn, hs, hβ⟩ := hm.turned he
  have ha : Deed.advancer? r ⟨b, m⟩ = none := by
    rw [he.1]
    rfl
  have hgen : (b'.standing.member r.number).generation = (b.standing.member r.number).generation := by
    rw [hs, generation_take]
  generalize hβk : β k = β₀ at hturn
  generalize hx : (b.take r.number (.offer g l')).1 = x at hturn
  cases hturn with
  | taken =>
    obtain ⟨-, rfl, hst⟩ := take_offer_taken hx
    rw [← generation_standing] at hβk
    cases h with
    | announced hl =>
      have hβc := hm.before.announced_of_offering hl
      obtain rfl := hn.once c k r _ l l' hβc hβk
      cases hβc.symm.trans hβk
      have hlt := (hm.before.sound.burdens c)
      rw [hβc] at hlt
      refine .installed (fun d l' hd => ?_) ?_
      · rw [hgen] at hd
        rcases hm.announced hd with hold | ⟨hadv, -⟩
        · obtain rfl := hn.once c d r _ l l' hβc hold
          rw [hβ, Function.update_self] at hd
          cases hd
        · cases ha.symm.trans hadv
      · rw [hgen, hs, hst, Standing.member_change_self (by simpa using hlt.1), generation_standing]
    | installed hnone _ | lost hnone _ _ _ => exact absurd hβk (hnone k l')
  | superseded =>
    obtain ⟨-, hne, hst⟩ := take_offer_superseded hx
    rw [← generation_standing] at hne
    have hmem : b'.standing.member r.number = b.standing.member r.number := by
      rw [hs, hst, standing_hangUp]
      rfl
    cases h with
    | announced hl =>
      refine .announced ?_
      rw [hmem]
      refine hm.offering hc hl fun he' => hne ?_
      cases (he.ext he').2.2
      rfl
    | installed hnone hch =>
      rw [← hmem] at hnone hch
      exact .installed (hm.nobody_announces ha hnone) hch
    | lost hnone hch hl hb =>
      rw [← hmem] at hnone hch
      exact .lost (hm.nobody_announces ha hnone) hch (hm.effect.isClosed hl) hb
  | handedBack =>
    have hret := (take_offer_handedBack hx).1
    rw [← retired_standing, hlives] at hret
    cases hret

/-- An exchange of the member fails. -/
theorem Latest.failed {l : Nat} (h : Latest b β r c l (HasFailed past l))
    (hc : asked c = .replaceConnection r l)
    (hm : Stride asked b m β b' β') {ch : Channel} {t : Ticket} {s : Silence}
    (he : Deed.event? ⟨b, m⟩ = some (.ended t ch.link (.error s)))
    (hch : (b.standing.member r.number).channel = some ch)
    (hs : b'.standing = b.standing.disconnect r.number) (hβ : β' = β) :
    Latest b' β' r c l (HasFailed (past ++ [⟨b, m⟩]) l) := by
  have hgen : (b'.standing.member r.number).generation = (b.standing.member r.number).generation := by
    rw [hs, Standing.generation_disconnect]
  cases h with
  | announced hl =>
    refine .announced ?_
    rw [hgen]
    exact hm.offering hc hl fun he' => by cases he'.event?.symm.trans he
  | installed hn h =>
    rw [h] at hch
    cases hch
    refine .lost ?_ ?_ ?_ ⟨t, s, ?_⟩
    · rwa [hgen, hβ]
    · rw [hs, Standing.member_disconnect_self]
    · rw [hs]
      exact Standing.isClosed_disconnect hm.before.held h
    · rw [log_snoc, he]
      exact List.mem_append_right _ (List.mem_singleton_self _)
  | lost hn h hl hb => cases h.symm.trans hch

/-- What can be seen of exchanges is not that a generation is advanced. -/
theorem advancer?_of_event {e : Event} (he : Deed.event? ⟨b, m⟩ = some e) :
    Deed.advancer? r ⟨b, m⟩ = none := by
  rcases ha : Deed.advancer? r ⟨b, m⟩ with _ | c
  · rfl
  · obtain ⟨rfl, next, hp⟩ := Deed.advancer?_eq_some.1 ha
    simp only [Deed.event?, hp] at he
    cases he

/-- Whatever happens to the member, the connection that was announced last is still to be taken,
or it is installed, unless it has failed. -/
theorem UpToDate.step {first : Nat} (h : UpToDate asked first past b β r) (hm : Stride asked b m β b' β')
    (hr : b.standing.Genuine r) (hn : b.standing.Numbered β)
    (hleft : ∀ c q, b.left? c = some q → ∃ steps, (asked c).program.Leads steps q)
    (honly : ∀ c, b.Handles c r →
      (∃ command, asked c = .execute r command) ∨
        first ≤ c ∧ ∃ l, asked c = .replaceConnection r l)
    (hkept : m ≠ .release r.number) : UpToDate asked first (past ++ [⟨b, m⟩]) b' β' r := by
  have hquiet : Deed.advancer? r ⟨b, m⟩ = none →
      advancers r (past ++ [⟨b, m⟩]) = advancers r past := by
    intro ha
    rw [advancers_snoc, ha]
    exact List.append_nil _
  -- whoever advances the generation, or has a turn, offers a connection
  have hwaits : ∀ c a next, b.Handles c r → b.left? c = some (.act a next) →
      ∃ l, first ≤ c ∧ asked c = .replaceConnection r l ∧
        (Program.act a next : Program Result) = .act (.advance r) (offering r l) := by
    intro c a next hc hl
    obtain ⟨steps, hq⟩ := hleft c _ hl
    rcases honly c hc with ⟨command, e⟩ | ⟨hfirst, l, e⟩
    · rw [e] at hq
      rcases Operation.left_of_execute hq with ⟨_, _, h⟩ | ⟨_, h⟩ <;> cases h
    · rw [e] at hq
      rcases Operation.left_of_replaceConnection hq with h | ⟨_, h⟩ | ⟨_, h⟩
      · exact ⟨l, hfirst, e, h⟩
      · cases h
      · cases h
  have hturns : ∀ c turn next, b.Handles c r → b.left? c = some (.wait (.enter r turn) next) →
      ∃ g l, asked c = .replaceConnection r l ∧ turn = .offer g l := by
    intro c turn next hc hl
    obtain ⟨steps, hq⟩ := hleft c _ hl
    rcases honly c hc with ⟨command, e⟩ | ⟨hfirst, l, e⟩
    · rw [e] at hq
      rcases Operation.left_of_execute hq with ⟨_, _, h⟩ | ⟨_, h⟩ <;> cases h
    · rw [e] at hq
      rcases Operation.left_of_replaceConnection hq with h | ⟨g, h⟩ | ⟨_, h⟩
      · cases h
      · cases h
        exact ⟨g, l, e, rfl⟩
      · cases h
  cases hm.incident hr with
  | spared hs ha he =>
    refine ⟨by rw [hs]; exact h.lives, fun c hc => ?_⟩
    rw [hquiet ha] at hc
    obtain ⟨l, hfirst, e, hl⟩ := h.latest c hc
    exact ⟨l, hfirst, e, hl.spared e hm hs ha he⟩
  | advanced k β₁ ha hk _ hs _ =>
    refine ⟨?_, fun c hc => ?_⟩
    · rw [hs, Standing.retired_change_of_eq (by intro; rfl)]
      exact h.lives
    · rw [advancers_snoc, ha, Option.toList_some, List.getLast?_concat] at hc
      cases hc
      obtain ⟨rfl, next, hp⟩ := Deed.advancer?_eq_some.1 ha
      obtain ⟨l, hfirst, e, hnext⟩ := hwaits k _ next hk (left?_of_phase hp)
      exact ⟨l, hfirst, e, latest_of_advance hm hr ha _ (hnext ▸ left?_of_phase hp)⟩
  | turned k turn β₁ he hk hturn hs hβ =>
    obtain ⟨hmove, t, next, -, -, hp⟩ := id he
    obtain ⟨g, l', -, rfl⟩ := hturns k turn next hk (left?_of_phase hp)
    have hret : (b.take r.number (.offer g l')).1 ≠ .handedBack := by
      intro hx
      have := (take_offer_handedBack hx).1
      rw [← retired_standing, h.lives] at this
      cases this
    refine ⟨?_, fun c hc => ?_⟩
    · rw [hs]
      rcases hx : (b.take r.number (.offer g l')).1 with _ | _ | _
      · rw [(take_offer_taken hx).2.2, Standing.retired_change_of_eq (by intro; rfl),
          Standing.retired_disconnect]
        exact h.lives
      · rw [(take_offer_superseded hx).2.2, standing_hangUp]
        exact h.lives
      · exact absurd hx hret
    · rw [hquiet (by rw [hmove]; rfl)] at hc
      obtain ⟨l, hfirst, e, hl⟩ := h.latest c hc
      exact ⟨l, hfirst, e, (hl.offered e hm hn h.lives he).mono fun hb => hb.snoc _⟩
  | failed ch t s he hch hs hβ =>
    refine ⟨?_, fun c hc => ?_⟩
    · rw [hs, Standing.retired_disconnect]
      exact h.lives
    · rw [hquiet (advancer?_of_event he)] at hc
      obtain ⟨l, hfirst, e, hl⟩ := h.latest c hc
      exact ⟨l, hfirst, e, hl.failed e hm he hch hs hβ⟩
  | released hmove _ _ => exact absurd hmove hkept

end

/-! ## Runs -/

/-- A time in which a member is given connections and closed. -/
structure Replacing (asked : Nat → Operation) (b₀ : Broker Result) (past : List (Deed Result))
    (b : Broker Result) (r : Ref) : Prop where
  known : b₀.Knows r
  lives : (b₀.member r.number).retired = false
  /-- nobody has to do with the member but those who send it commands, and the calls that are
  started in this time to give it a connection or to close it -/
  only : ∀ d ∈ past, ∀ c, d.before.Handles c r → (∃ command, asked c = .execute r command) ∨
    b₀.calls.length ≤ c ∧ ((∃ l, asked c = .replaceConnection r l) ∨ asked c = .close r)
  /-- somebody keeps a handle to it -/
  kept : ∀ d ∈ past, d.move ≠ .release r.number
  /-- there was such a call -/
  begun : ∃ c, b₀.calls.length ≤ c ∧ c < b.calls.length ∧
    ((∃ l, asked c = .replaceConnection r l) ∨ asked c = .close r)
  /-- and all of them are over -/
  ended : ∀ c, b₀.calls.length ≤ c → c < b.calls.length →
    (∃ l, asked c = .replaceConnection r l) ∨ asked c = .close r →
      ∃ x, b.phase? c = some (.finished x)

namespace Broker

variable {asked : Nat → Operation} {b₀ b : Broker Result} {timeout c : Nat}
  {past₁ past₂ : List (Deed Result)} {r : Ref}

/-- Whoever has advanced the generation of a member in a run is one of its calls. -/
theorem Run.lt_of_mem_advancers {allowed : Broker Result → Move Result → Prop}
    (hr : Run (fun _ => allowed) b₀ past₂ b) (hc : c ∈ advancers r past₂) :
    c < b.calls.length := by
  obtain ⟨d, hd, ha⟩ := List.mem_filterMap.1 hc
  obtain ⟨p, q, -, -, hrest⟩ := hr.cut hd
  obtain ⟨-, next, hp⟩ := Deed.advancer?_eq_some.1 ha
  obtain ⟨call, hcall, -⟩ := exists_call_of_phase hp
  exact Nat.lt_of_lt_of_le (List.getElem?_eq_some_iff.1 hcall).1 hrest.calls_length

/-- Installed connections are not ahead of their members at any time, and each connection that is
announced has a generation of its own. -/
theorem Run.numbered (hr : Run (fun _ => Operation.Starts asked) (fresh timeout) past₁ b) :
    ∃ β, Course asked b β ∧ b.standing.Dated ∧ b.standing.Numbered β :=
  hr.course (P := fun _ b β => b.standing.Dated ∧ b.standing.Numbered β) (fun _ _ _ h => h)
    (Course.fresh asked timeout) ⟨nofun, nofun, nofun⟩
    fun _ _ _ _ _ _ h _ hm => ⟨hm.effect.dated h.1, hm.numbered h.2⟩

/-- A call that gives a member a connection and is over has advanced the generation of the
member. -/
theorem Run.mem_advancers (h₁ : Run (fun _ => Operation.Starts asked) (fresh timeout) past₁ b₀)
    (h₂ : Run (fun _ => Operation.Starts asked) b₀ past₂ b) (hc : b₀.calls.length ≤ c)
    {l : Nat} (hasked : asked c = .replaceConnection r l) {x : Result}
    (hx : b.phase? c = some (.finished x)) : c ∈ advancers r past₂ := by
  obtain ⟨steps, q, hq, hpath, hmade⟩ := (h₁.append h₂).hasCome
    (f := fun c => (asked c).program) (fun _ _ _ _ h => h.2.1) (left?_of_phase hx)
  cases (left?_of_phase hx).symm.trans hq
  rw [hasked] at hpath
  cases hpath with
  | act hpath =>
    obtain ⟨d, hd, hmove, hnext, -⟩ := hmade _ List.mem_cons_self
    rcases List.mem_append.1 hd with hd | hd
    · -- the call had not been started then
      obtain ⟨p, q, -, -, hrest⟩ := h₁.cut hd
      obtain ⟨next, hp⟩ := hnext
      obtain ⟨call, hcall, -⟩ := exists_call_of_phase hp
      have := (List.getElem?_eq_some_iff.1 hcall).1
      have := hrest.calls_length
      omega
    · exact List.mem_filterMap.2 ⟨d, hd, Deed.advancer?_eq_some.2 ⟨hmove, hnext⟩⟩

end Broker

section

variable {asked : Nat → Operation} {b₀ b : Broker Result} {timeout : Nat}
  {past₁ past₂ : List (Deed Result)} {r : Ref}

/-- As long as nobody closes the member, the connection that was announced last is about to be
taken, or it is installed, unless it has failed. -/
theorem Replacing.upToDate (h : Replacing asked b₀ past₂ b r)
    (h₁ : Run (fun _ => Operation.Starts asked) (fresh timeout) past₁ b₀)
    (h₂ : Run (fun _ => Operation.Starts asked) b₀ past₂ b)
    (hopen : ∀ c, b₀.calls.length ≤ c → c < b.calls.length → asked c ≠ .close r) :
    ∃ β, Course asked b β ∧ UpToDate asked b₀.calls.length past₂ b β r ∧
      (b.standing.member r.number).generation =
        (b₀.standing.member r.number).generation + (advancers r past₂).length ∧
      ∀ ch, (b₀.standing.member r.number).channel = some ch →
        (b.standing.member r.number).channel = some ch ∨ b.standing.IsClosed ch.link := by
  obtain ⟨β₀, hc₀, -, hn₀⟩ := h₁.numbered
  have honly : ∀ d ∈ past₂, ∀ c, d.before.Handles c r →
      (∃ command, asked c = .execute r command) ∨
        b₀.calls.length ≤ c ∧ ∃ l, asked c = .replaceConnection r l := by
    intro d hd c hc
    refine (h.only d hd c hc).imp_right fun ⟨hfirst, hop⟩ => ⟨hfirst, hop.resolve_right ?_⟩
    obtain ⟨p, q, -, -, hrest⟩ := h₂.cut hd
    obtain ⟨call, hcall, -⟩ := hc
    exact hopen c hfirst
      (Nat.lt_of_lt_of_le (List.getElem?_eq_some_iff.1 hcall).1 hrest.calls_length)
  obtain ⟨β, hc, hall⟩ := h₂.course (P := fun past b β => past ⊆ past₂ →
      Run (fun _ => Operation.Starts asked) (fresh timeout) (past₁ ++ past) b ∧
      b.standing.Genuine r ∧ b.standing.Numbered β ∧
      UpToDate asked b₀.calls.length past b β r ∧
      (b.standing.member r.number).generation =
        (b₀.standing.member r.number).generation + (advancers r past).length ∧
      ∀ ch, (b₀.standing.member r.number).channel = some ch →
        (b.standing.member r.number).channel = some ch ∨ b.standing.IsClosed ch.link)
    (fun _ _ _ h => h) hc₀
    (fun _ => ⟨by rwa [List.append_nil], hc₀.calls.genuine_of_knows hc₀.sound h.known, hn₀,
      ⟨by rw [retired_standing]; exact h.lives, nofun⟩, rfl, fun _ => .inl⟩)
    fun past b m β b' β' ih ha hm hsub => by
      have hd : (⟨b, m⟩ : Deed Result) ∈ past₂ := hsub (List.mem_append_right _ List.mem_cons_self)
      obtain ⟨hr, hgen, hn, hup, hcount, hold⟩ := ih fun d hd => hsub (List.mem_append_left _ hd)
      refine ⟨?_, hm.effect.genuine hgen, hm.numbered hn, ?_, ?_, fun ch hch => ?_⟩
      · rw [← List.append_assoc]
        exact hr.snoc m ha hm.step
      · exact hup.step hm hgen hn (fun c q => hr.left) (honly _ hd) (h.kept _ hd)
      · rw [hm.generation hgen, hcount, advancers_snoc, List.length_append, Nat.add_assoc]
      · rcases hold ch hch with hsame | hclosed
        · exact hm.effect.closes hm.before.held hsame
        · exact .inr (hm.effect.isClosed hclosed)
  exact ⟨β, hc, (hall (List.Subset.refl _)).2.2.2⟩

/-- Calls give a member connections and close it, in whatever order they advance its generation and
have their turns, and whatever commands are on their way. Once all of them are over:

* if none of them closes the member, the connection of the call that has advanced the generation
  last is installed with that generation, unless an exchange on it has failed, and then it is closed
  and none is installed; all other connections that were offered are closed, and so is the old one;
* if one of them closes the member, it is retired and has no connection, and each connection that
  was offered is closed or was handed back.

At no time has a retired member a connection, or a connection a generation that its member has not
reached. -/
theorem Broker.replacement_converges
    (h₁ : Run (fun _ => Operation.Starts asked) (fresh timeout) past₁ b₀)
    (h₂ : Run (fun _ => Operation.Starts asked) b₀ past₂ b) (h : Replacing asked b₀ past₂ b r) :
    ((∀ c, b₀.calls.length ≤ c → c < b.calls.length → asked c ≠ .close r) →
      ∃ c l, (advancers r past₂).getLast? = some c ∧ b₀.calls.length ≤ c ∧
        asked c = .replaceConnection r l ∧ (b.member r.number).retired = false ∧
        ((b.member r.number).channel = some ⟨l, (b.member r.number).generation⟩ ∨
          (b.member r.number).channel = none ∧ b.standing.IsClosed l ∧ HasFailed past₂ l) ∧
        (∀ k l', b₀.calls.length ≤ k → k < b.calls.length →
          asked k = .replaceConnection r l' → l' ≠ l → b.standing.IsClosed l') ∧
        ∀ ch, (b₀.member r.number).channel = some ch → b.standing.IsClosed ch.link) ∧
    ((∃ c, b₀.calls.length ≤ c ∧ c < b.calls.length ∧ asked c = .close r) →
      (b.member r.number).retired ∧ (b.member r.number).channel = none ∧
        ∀ k l, b₀.calls.length ≤ k → k < b.calls.length → asked k = .replaceConnection r l →
          b.standing.IsClosed l ∨ b.phase? k = some (.finished (.offered .handedBack))) ∧
    ∀ a ∈ (past₁ ++ past₂).map Deed.before ++ [b],
      ((a.member r.number).retired → (a.member r.number).channel = none) ∧
        ∀ ch, (a.member r.number).channel = some ch →
          ch.generation ≤ (a.member r.number).generation := by
  have hr := h₁.append h₂
  -- what has become of each connection that was offered
  have hoffered : ∀ k l, b₀.calls.length ≤ k → k < b.calls.length →
      asked k = .replaceConnection r l →
      ∃ o, b.phase? k = some (.finished (.offered o)) ∧
        (Operation.replaceConnection r l).Fate b.standing (.offered o) := by
    intro k l hk hlt hop
    obtain ⟨x, hx⟩ := h.ended k hk hlt (.inl ⟨l, hop⟩)
    obtain ⟨steps, hsteps⟩ := hr.left (left?_of_phase hx)
    have hfate := hr.fate (left?_of_phase hx)
    rw [hop] at hsteps hfate
    rcases Operation.left_of_replaceConnection hsteps with e | ⟨g, e⟩ | ⟨o, e⟩ <;> cases e
    exact ⟨o, hx, hfate⟩
  refine ⟨fun hopen => ?_, fun ⟨c, hc, hlt, hop⟩ => ?_, fun a ha => ?_⟩
  · obtain ⟨β, hc, hup, hcount, hold⟩ := h.upToDate h₁ h₂ hopen
    simp only [← retired_standing, ← channel_standing, ← generation_standing]
    obtain ⟨c₀, hc₀, hlt₀, hop₀⟩ := h.begun
    obtain ⟨x₀, hx₀⟩ := h.ended c₀ hc₀ hlt₀ hop₀
    obtain ⟨l₀, hop₀⟩ := hop₀.resolve_right (hopen c₀ hc₀ hlt₀)
    have hmem := h₁.mem_advancers h₂ hc₀ hop₀ hx₀
    obtain ⟨c, hlast⟩ : ∃ c, (advancers r past₂).getLast? = some c :=
      ⟨_, List.getLast?_eq_some_getLast (List.ne_nil_of_mem hmem)⟩
    obtain ⟨l, hfirst, hop, hl⟩ := hup.latest c hlast
    obtain ⟨o, hx, -⟩ :=
      hoffered c l hfirst (h₂.lt_of_mem_advancers (List.mem_of_getLast? hlast)) hop
    have hslot : (b.standing.member r.number).channel =
          some ⟨l, (b.standing.member r.number).generation⟩ ∨
        (b.standing.member r.number).channel = none ∧ b.standing.IsClosed l ∧
          HasFailed past₂ l := by
      cases hl with
      | announced hl => cases hl.symm.trans (left?_of_phase hx)
      | installed _ hch => exact .inl hch
      | lost _ hch hclosed hb => exact .inr ⟨hch, hclosed, hb⟩
    have hhas : ∀ ch, (b.standing.member r.number).channel = some ch →
        ch = ⟨l, (b.standing.member r.number).generation⟩ := by
      intro ch hch
      rcases hslot with hs | ⟨hs, -⟩ <;> cases hch.symm.trans hs
      rfl
    refine ⟨c, l, hlast, hfirst, hop, hup.lives, hslot, fun k l' hk hlt hop' hne => ?_,
      fun ch hch => (hold ch hch).resolve_left fun hsame => ?_⟩
    · obtain ⟨o, -, hfate⟩ := hoffered k l' hk hlt hop'
      cases o with
      | taken =>
        refine hfate.resolve_left fun ⟨g, hch⟩ => hne ?_
        cases hhas _ hch
        rfl
      | superseded => exact hfate
      | handedBack => cases hup.lives.symm.trans hfate.2
    · -- the generation has been advanced since the old connection was installed
      obtain ⟨-, -, hdated, -⟩ := h₁.numbered
      have hle := hdated _ _ hch
      have hpos := List.length_pos_of_mem hmem
      rw [hhas ch hsame] at hle
      dsimp only at hle
      omega
  · obtain ⟨x, hx⟩ := h.ended c hc hlt (.inr hop)
    have hfate := hr.fate (left?_of_phase hx)
    rw [hop] at hfate
    obtain ⟨β, hcourse, -⟩ := hr.numbered
    have hnone := hcourse.sound.vacant _ hfate.2
    refine ⟨by rw [← retired_standing]; exact hfate.2, by rwa [← channel_standing],
      fun k l hk hlt hop' => ?_⟩
    obtain ⟨o, hx, hfate⟩ := hoffered k l hk hlt hop'
    cases o with
    | taken =>
      refine .inl (hfate.resolve_left fun ⟨g, hch⟩ => ?_)
      cases hnone.symm.trans hch
    | superseded => exact .inl hfate
    | handedBack => exact .inr hx
  · obtain ⟨past, hprefix⟩ : ∃ past, Run (fun _ => Operation.Starts asked) (fresh timeout) past a := by
      rcases List.mem_append.1 ha with ha | ha
      · obtain ⟨d, hd, rfl⟩ := List.mem_map.1 ha
        obtain ⟨p, -, -, hp, -⟩ := hr.cut hd
        exact ⟨p, hp⟩
      · rw [List.mem_singleton.1 ha]
        exact ⟨_, hr⟩
    obtain ⟨β, hcourse, hdated, -⟩ := hprefix.numbered
    simp only [← retired_standing, ← channel_standing, ← generation_standing]
    exact ⟨hcourse.sound.vacant _, hdated _⟩

end

/-! ## Runs in which a member is given connections -/

section

/-- Whether it sends commands to a member and does nothing else. -/
def Operation.sendsTo (r : Ref) : Operation → Bool
  | execute r' _ => r' == r
  | _ => false

/-- Whether it gives a member a connection or closes it. -/
def Operation.replacesAt (r : Ref) : Operation → Bool
  | replaceConnection r' _ | close r' => r' == r
  | _ => false

theorem Operation.sendsTo_iff {r : Ref} {op : Operation} :
    op.sendsTo r ↔ ∃ command, op = .execute r command := by
  cases op <;> simp [sendsTo]

theorem Operation.replacesAt_iff {r : Ref} {op : Operation} :
    op.replacesAt r ↔ (∃ l, op = .replaceConnection r l) ∨ op = .close r := by
  cases op <;> simp [replacesAt]

/-- Whether a member is dropped because nobody refers to it any more. -/
def Move.releases (n : Nat) : Move Result → Bool
  | .release k => k == n
  | _ => false

theorem Move.releases_iff {n : Nat} {m : Move Result} : m.releases n ↔ m = .release n := by
  cases m <;> simp [releases]

variable {asked : Nat → Operation} {b₀ b : Broker Result} {past : List (Deed Result)} {r : Ref}

theorem replacing_iff : Replacing asked b₀ past b r ↔
    b₀.Knows r ∧ (b₀.member r.number).retired = false ∧
      (∀ d ∈ past, ∀ c < d.before.calls.length, d.before.Handles c r →
        (asked c).sendsTo r ∨ b₀.calls.length ≤ c ∧ (asked c).replacesAt r) ∧
      (∀ d ∈ past, ¬d.move.releases r.number) ∧
      (∃ c < b.calls.length, b₀.calls.length ≤ c ∧ (asked c).replacesAt r) ∧
      ∀ c < b.calls.length, b₀.calls.length ≤ c → (asked c).replacesAt r → (b.result? c).isSome := by
  have hresult : ∀ c, (b.result? c).isSome ↔ ∃ x, b.phase? c = some (.finished x) := by
    refine fun c => ⟨fun h => ?_, fun ⟨x, hx⟩ => ?_⟩
    · obtain ⟨x, hx⟩ := Option.isSome_iff_exists.1 h
      exact ⟨x, phase?_of_result? hx⟩
    · obtain ⟨call, hcall, hph⟩ := exists_call_of_phase hx
      rw [result?, hcall, Option.bind_some, Call.result?, hph]
      rfl
  simp only [Operation.sendsTo_iff, Operation.replacesAt_iff, Move.releases_iff, hresult]
  constructor
  · rintro ⟨hknown, hlives, honly, hkept, ⟨c, hc, hlt, hop⟩, hover⟩
    exact ⟨hknown, hlives, fun d hd c _ => honly d hd c, hkept, ⟨c, hlt, hc, hop⟩,
      fun c hlt hc => hover c hc hlt⟩
  · rintro ⟨hknown, hlives, honly, hkept, ⟨c, hlt, hc, hop⟩, hover⟩
    refine ⟨hknown, hlives, fun d hd c hc' => honly d hd c ?_ hc', hkept, ⟨c, hc, hlt, hop⟩,
      fun c hc hlt => hover c hlt hc⟩
    exact (List.getElem?_eq_some_iff.1 hc'.choose_spec.1).1

instance : Decidable (Replacing asked b₀ past b r) :=
  decidable_of_iff _ replacing_iff.symm

end

/-- A member is given two connections, after a command has been sent to it. -/
def nfvMoves : Nat → Operation
  | 0 => .registerSecondary 0
  | 1 => .execute ⟨0, .nfv, 1⟩ .status
  | 2 => .replaceConnection ⟨0, .nfv, 1⟩ 1
  | 3 => .replaceConnection ⟨0, .nfv, 1⟩ 2
  | _ => .listing

/-- The command is on its way when both connections are announced. The second one to be announced
is the first one to be offered. -/
def nfvMoves.script : List Cue :=
  nfvConnects ++
    ([.call, .move (.run 1), .move (.serve 0), .move .accept, .move .accept,
      .call, .call, .move (.run 2), .move (.run 3), .move (.supersede 1 0), .move (.run 1),
      .move (.run 3), .move (.serve 0), .move (.run 3),
      .move (.run 2), .move (.serve 0), .move (.run 2)] : List Cue)

theorem Broker.replacement_converges_out_of_order :
    ∃ past₁ past₂ b₀ b, Run (fun _ => Operation.Starts nfvMoves) (fresh 5) past₁ b₀ ∧
      Run (fun _ => Operation.Starts nfvMoves) b₀ past₂ b ∧
      b₀.talking? ⟨1, 0⟩ = some (0, 0, 5) ∧ (b.member 0).channel = some ⟨2, 2⟩ ∧
      b.standing.IsClosed 0 ∧ b.standing.IsClosed 1 := by
  obtain ⟨past, b, hr, hp⟩ :
      ∃ past b, Run (fun _ => Operation.Starts nfvMoves) (fresh 5) past b ∧
        ∃ d ∈ past[13]?, Replacing nfvMoves d.before (past.drop 13) b ⟨0, .nfv, 1⟩ ∧
          d.before.calls.length = 2 ∧ b.calls.length = 4 ∧
          d.before.talking? ⟨1, 0⟩ = some (0, 0, 5) ∧
          (d.before.member 0).channel = some ⟨0, 0⟩ ∧ (b.member 0).generation = 2 ∧
          advancers ⟨0, .nfv, 1⟩ (past.drop 13) = [2, 3] ∧
          ∀ e ∈ log (past.drop 13), e.link = 0 :=
    exists_run_of_play (fun _ _ => True) nfvMoves.script (fun _ _ _ h _ => h) (by decide +kernel)
  obtain ⟨d, hd, hreplacing, hfirst, hlen, htalk, hch, hgen, hadv, hlog⟩ := hp
  obtain ⟨h₁, h₂⟩ := hr.split hd
  obtain ⟨c, l, hlast, -, hop, -, hslot, hothers, hold⟩ :=
    (replacement_converges h₁ h₂ hreplacing).1 fun c hc hlt e => by
      rw [hfirst] at hc
      rw [hlen] at hlt
      obtain rfl | rfl : c = 2 ∨ c = 3 := by omega
      all_goals cases e
  rw [hadv] at hlast
  cases hlast
  cases hop
  refine ⟨_, _, d.before, b, h₁, h₂, htalk, ?_, hold ⟨0, 0⟩ hch,
    hothers 2 1 (by omega) (by omega) rfl (by decide)⟩
  rcases hslot with hs | ⟨-, -, t, s, hfail⟩
  · rw [hs, hgen]
  · cases hlog _ hfail

/-- Two connections are announced to a member, and a command is sent to it in between their
turns. -/
def nfvLoses : Nat → Operation
  | 0 => .registerSecondary 0
  | 1 => .replaceConnection ⟨0, .nfv, 1⟩ 1
  | 2 => .replaceConnection ⟨0, .nfv, 1⟩ 2
  | 3 => .execute ⟨0, .nfv, 1⟩ .status
  | _ => .listing

/-- The command is written on the connection that was announced last, and the worker ends the
stream. The other connection has its turn only then. -/
def nfvLoses.script : List Cue :=
  nfvConnects ++
    ([.move .accept, .move .accept, .call, .call, .call, .move (.run 1), .move (.run 2),
      .move (.run 2), .move (.serve 0), .move (.run 2),
      .move (.run 3), .move (.serve 0), .move (.signal 2 .ended), .move (.receive 3 0),
      .move (.run 3), .move (.run 1), .move (.serve 0), .move (.run 1)] : List Cue)

/-- A connection that has taken its place can be lost before the other calls are over. -/
theorem Broker.no_connection_after_replacement :
    ∃ past₁ past₂ b₀ b, Run (fun _ => Operation.Starts nfvLoses) (fresh 5) past₁ b₀ ∧
      Run (fun _ => Operation.Starts nfvLoses) b₀ past₂ b ∧
      Replacing nfvLoses b₀ past₂ b ⟨0, .nfv, 1⟩ ∧ (∀ c, nfvLoses c ≠ .close ⟨0, .nfv, 1⟩) ∧
      (b.member 0).channel = none := by
  obtain ⟨past, b, hr, d, hd, hreplacing, hnone⟩ :
      ∃ past b, Run (fun _ => Operation.Starts nfvLoses) (fresh 5) past b ∧
        ∃ d ∈ past[8]?, Replacing nfvLoses d.before (past.drop 8) b ⟨0, .nfv, 1⟩ ∧
          (b.member 0).channel = none :=
    exists_run_of_play (fun _ _ => True) nfvLoses.script (fun _ _ _ h _ => h) (by decide +kernel)
  obtain ⟨h₁, h₂⟩ := hr.split hd
  refine ⟨_, _, d.before, b, h₁, h₂, hreplacing, fun c => ?_, hnone⟩
  unfold nfvLoses
  split <;> exact nofun

end WorkerBroker
