import WorkerBroker.Proofs.Addressees
/-!
# Requests that are refused

A request that is refused touches nothing: whatever was done for it left the registry, all members and
all connections as they were, and no line was written. A request is refused if it is answered with the
status 404 or 405, or with 400 for a reason other than an error that a worker has reported
(`Service.refused_spares`). The reason is the order in which things are done for a request
(`Request.Answers`): the response to one for which a command was sent is never such a refusal.

A body that cannot be read is refused before anybody is looked up, so the answer is the same whoever is
registered. Only the length of a body is looked at before.
-/

namespace WorkerBroker

namespace Deed

variable {ω : Type}

/-- A move leaves the registry, all members, all connections and all other calls as they are. -/
structure Spares (d : Deed ω) (c : Nat) (b' : Broker ω) : Prop where
  registry : b'.registry = d.before.registry
  members : b'.members = d.before.members
  links : b'.links = d.before.links
  held : b'.held = d.before.held
  others : ∀ k, k ≠ c → b'.calls[k]? = d.before.calls[k]?

end Deed

namespace Program

/-- A program that is done or looks a member up. -/
def IsQuiet {ω : Type} : Program ω → Prop
  | done _ | act (.find _) _ => True
  | _ => False

theorem IsQuiet.map {α ω : Type} {p : Program α} (h : p.IsQuiet) (f : α → ω) :
    (p.bind fun x => done (f x)).IsQuiet := by
  cases p with
  | done x => trivial
  | act a next =>
    cases a with
    | find id => trivial
    | _ => exact h.elim
  | wait w next => exact h.elim

/-- What only looks members up on its way to the end is quiet. -/
theorem Leads.isQuiet {ω : Type} {p : Program ω} {x : ω} {steps : List Step}
    (h : p.Leads steps (done x)) (hs : ∀ e ∈ steps, e.IsLookUp) : p.IsQuiet := by
  cases h with
  | refl => trivial
  | @act a _ _ _ _ _ =>
    have hstep := hs _ List.mem_cons_self
    cases a with
    | find id => trivial
    | _ => exact hstep.elim
  | wait _ => exact (hs _ List.mem_cons_self).elim

end Program

namespace Broker

variable {ω : Type} {b b' : Broker ω} {m : Move ω} {c : Nat}

/-- A call that is quiet leaves everything but itself as it is. -/
theorem spares_stepProgram {p : Program ω} (hp : p.IsQuiet) :
    Deed.Spares ⟨b, .run c⟩ c (b.stepProgram c p) := by
  cases p with
  | done x =>
    refine ⟨rfl, rfl, rfl, rfl, fun k hk => ?_⟩
    exact List.getElem?_modify_ne _ _ (Ne.symm hk)
  | act a next =>
    cases a with
    | find id =>
      refine ⟨rfl, rfl, rfl, rfl, fun k hk => ?_⟩
      exact (List.getElem?_modify_ne _ _ (Ne.symm hk)).trans
        (List.getElem?_modify_ne _ _ (Ne.symm hk))
    | _ => exact hp.elim
  | wait w next => exact hp.elim

/-- So does every move that is a step of it. -/
theorem spares_of_quiet (hm : b.step m = some b') (hc : b.mover? m = some c)
    (hq : ∀ p, b.phase? c = some p → ∃ q, p.left? = some q ∧ q.IsQuiet)
    (hstay : b'.phase? c ≠ some .abandoned) : Deed.Spares ⟨b, m⟩ c b' := by
  -- a call that is quiet waits for nothing
  have hwaits : ∀ {p w next}, b.phase? c = some p → p.left? = some (.wait w next) → False := by
    intro p w next hp hleft
    obtain ⟨q, hq, hquiet⟩ := hq p hp
    rw [hleft] at hq
    cases hq
    exact hquiet
  cases makes_of_step hm with
  | starts program refs brings =>
    cases hc
    exact ⟨rfl, rfl, rfl, rfl, fun k hk => getElem?_concat_ne _ _ hk⟩
  | runs hp =>
    cases hc
    obtain ⟨q, hleft, hquiet⟩ := hq _ hp
    cases hleft
    exact spares_stepProgram hquiet
  | turns hn hp =>
    cases hc.symm.trans (mover?_serve hn)
    exact (hwaits hp rfl).elim
  | begins hn hp _ =>
    cases hc.symm.trans (mover?_serve hn)
    exact (hwaits hp rfl).elim
  | receives ht _ | supersedes ht _ _ | expires ht _ =>
    cases hc
    obtain ⟨legs, next, -, hp, -⟩ := leg_of_talking? ht
    exact (hwaits hp rfl).elim
  | hears hp _ | givesUp hp _ =>
    cases hc
    exact (hwaits hp rfl).elim
  | @abandons k call hcall _ _ =>
    cases hc
    have hp : (b.withdraw c).phase? c = some call.phase := congrArg (Option.map Call.phase) hcall
    exact absurd (phase?_setPhase_self hp) hstay
  | accepts | signals _ _ | releases _ _ | passes _ => cases hc

end Broker

/-! ## Requests that touch nothing -/

/-- An error was read for a call that a worker reported. -/
def HasReported {ω : Type} (past : List (Deed ω)) (c : Nat) : Prop :=
  ∃ d ∈ past, ∃ t l raw detail reply, t.call = c ∧ d.event? = some (.ended t l (.ok raw)) ∧
    decodeReply raw = .error (.rejected detail reply)

/-- A response that refuses the request, after this has happened. -/
def Response.IsRefusal {ω : Type} (past : List (Deed ω)) (c : Nat) (x : Response) : Prop :=
  x.status = 404 ∨ x.status = 405 ∨ x.status = 400 ∧ ¬HasReported past c

namespace Service

open Broker

variable {asked : Nat → Service} {timeout c : Nat} {past : List (Deed Upshot)}
  {b : Broker Upshot} {layout : List Socket} {request : Request} {x : Response}

/-- All that leads to a refusal is look-ups. -/
theorem lookUps_of_refusal (hr : Run (fun _ => Starts asked) (fresh timeout) past b)
    (hc : asked c = .request layout request) (hx : x.IsRefusal past c) {steps : List Step}
    (h : (asked c).program.Leads steps (.done (.response x)))
    (hmade : ∀ e ∈ steps, e.Made past c) : ∀ e ∈ steps, e.IsLookUp := by
  rw [hc] at h
  obtain ⟨p, hp, hqp⟩ := h.of_map
  -- a response that comes after a command is no refusal, whatever the outcome was
  cases p with
  | act a next => cases hqp
  | wait w next => cases hqp
  | done x' =>
    cases hqp
    have hplausible : ∀ e ∈ steps, e.IsPlausible := fun e he =>
      isPlausible_of_made (steady hr).2 (hmade e he)
    rcases (Gateway.answers_handle layout request).of_done hp hplausible with
      ⟨hlookUps, -⟩ | hstatus | ⟨commands, outcomes, hmem, hafter⟩
    · exact hlookUps
    · rcases hx with hx | hx | ⟨hx, -⟩ <;> rw [hstatus] at hx <;> cases hx
    · rcases hx with hx | hx | ⟨hx, hreported⟩
      · exact absurd hx hafter.found
      · exact absurd hx hafter.admitted
      · obtain ⟨raw, detail, reply, hraw, hdecode⟩ := hafter.reported hx
        obtain ⟨hheard, -⟩ := hmade _ hmem
        obtain ⟨d, hd, l, hevent⟩ := hheard 0 raw hraw
        exact absurd ⟨d, hd, ⟨c, 0⟩, l, raw, detail, reply, rfl, hevent, hdecode⟩ hreported

/-- At all times before it is refused, a request was about to end or to look a member up. -/
theorem isQuiet_of_refusal (hr : Run (fun _ => Starts asked) (fresh timeout) past b)
    (hc : asked c = .request layout request) (hx : x.IsRefusal past c)
    (hend : b.phase? c = some (.finished (.response x))) {d : Deed Upshot} (hd : d ∈ past)
    {p : Phase Upshot} (hp : d.before.phase? c = some p) :
    ∃ q, p.left? = some q ∧ q.IsQuiet := by
  obtain ⟨past₁, past₂, rfl, h₁, h₂⟩ := hr.cut hd
  -- who is given up never has a response; who is not goes on to it by look-ups only
  rcases hq : p.left? with _ | q
  · rw [Phase.left?_eq_none.1 hq] at hp
    cases hend.symm.trans (h₂.abandoned hp)
  · refine ⟨q, rfl, ?_⟩
    have hleft := (left?_of_phase hp).trans hq
    obtain ⟨s₁, q₁, hq₁, hpath₁, hmade₁⟩ := path h₁ hleft
    obtain rfl := Option.some.inj (hleft.symm.trans hq₁)
    rcases h₁.leads h₂ hleft with hgone | ⟨s₂, q₂, hq₂, hpath₂, hmade₂⟩
    · cases hend.symm.trans hgone
    · obtain rfl := Option.some.inj ((left?_of_phase hend).symm.trans hq₂)
      have hlookUps := lookUps_of_refusal hr hc hx (hpath₁.trans hpath₂) fun e he => ?_
      · exact hpath₂.isQuiet fun e he => hlookUps e (List.mem_append_right _ he)
      · rcases List.mem_append.1 he with he | he
        · exact (hmade₁ e he).mono (List.subset_append_left ..)
        · exact hmade₂ e he

/-- What is done for a request that is refused spares all but the call, and writes nothing. -/
theorem spares_of_refusal (hr : Run (fun _ => Starts asked) (fresh timeout) past b)
    (hc : asked c = .request layout request) (hx : x.IsRefusal past c)
    (hend : b.phase? c = some (.finished (.response x))) {d : Deed Upshot} (hd : d ∈ past) :
    (∀ l line, ¬d.Writes c l line) ∧
      (d.before.mover? d.move = some c →
        ∀ b', d.before.step d.move = some b' → d.Spares c b') := by
  have hquiet : ∀ p, d.before.phase? c = some p → ∃ q, p.left? = some q ∧ q.IsQuiet :=
    fun p => isQuiet_of_refusal hr hc hx hend hd
  constructor
  · rintro l line ⟨t, rfl, hevent⟩
    obtain ⟨-, -, commands, next, -, -, -, -, -, hleft⟩ := of_wrote hr hd hevent hc
    obtain ⟨p, hp, hleft⟩ := Option.bind_eq_some_iff.1 hleft
    obtain ⟨q, hq, hquiet⟩ := hquiet p hp
    rw [hleft] at hq
    cases hq
    exact hquiet
  · intro hmover b' hm
    refine spares_of_quiet hm hmover hquiet fun hgone => ?_
    obtain ⟨past₁, past₂, rfl, -, h₂⟩ := hr.cut hd
    obtain ⟨-, a, ha, hrest⟩ := h₂.of_cons
    obtain rfl := Option.some.inj (hm.symm.trans ha)
    cases hend.symm.trans (hrest.abandoned hgone)

end Service

/-! ## Bodies that cannot be read -/

/-- The methods that come with something to be done with a worker. Orders come with those that have
a body. -/
def Action.methods : Action → List Method
  | .display => [.get]
  | .order _ => [.put, .post]
  | .exit | .clear | .resetPatches | .stopComponent _ => [.delete]

theorem method_of_primaryRoutes (path : List String) :
    ∀ x ∈ primaryRoutes path, x.1 ∈ x.2.methods := by
  unfold primaryRoutes
  split <;> simp [Action.methods]

theorem method_of_componentRoutes (path : List String) :
    ∀ x ∈ componentRoutes path, x.1 ∈ x.2.methods := by
  unfold componentRoutes
  split <;> simp [Action.methods]

theorem method_of_secondaryRoutes (kind : WorkerKind) (path : List String) :
    ∀ x ∈ secondaryRoutes kind path, x.1 ∈ x.2.methods := by
  cases kind with
  | primary => simp [secondaryRoutes]
  | nfv =>
    simp only [secondaryRoutes, forwarderRoutes]
    split <;> simp [Action.methods]
  | vf =>
    simp only [secondaryRoutes, classifierRoutes]
    split
    · simp [Action.methods]
    · exact method_of_componentRoutes _
  | mirror => exact method_of_componentRoutes path
  | pcap =>
    simp only [secondaryRoutes, captureRoutes]
    split <;> simp [Action.methods]

/-- Decoding the name in a path makes no other action of it. -/
theorem Action.methods_of_decode {a a' : Action} (h : a.decode = .ok a') :
    a'.methods = a.methods := by
  cases a with
  | stopComponent name =>
    simp only [Action.decode] at h
    rcases hs : decodeSegment "name" name with _ | s <;> rw [hs] at h <;> cases h
    rfl
  | order o =>
    simp only [Action.decode] at h
    rcases hs : o.decode with _ | s <;> rw [hs] at h <;> cases h
    rfl
  | _ =>
    cases h
    rfl

/-- A request for something to be done with a worker has a method that comes with it. -/
theorem Request.method_of_errand? {request : Request} {address : Address} {action : Action}
    (h : request.errand? = some (.worker address action)) :
    (if request.method = .head then .get else request.method) ∈ action.methods := by
  obtain ⟨m, e, hmem, rfl, hd⟩ := request.of_errand? h
  rcases mem_routes hmem with ⟨-, -, -, hno⟩ | ⟨path, action', -, hroute, rfl⟩ |
    ⟨collection, id, path, kind, action', -, -, -, hroute, rfl⟩
  · cases e with
    | worker address' action' => exact absurd rfl (hno address' action')
    | _ => cases hd
  · obtain ⟨_, _, ⟨⟩, -, ha⟩ := Errand.decode_worker hd
    rw [Action.methods_of_decode ha]
    exact method_of_primaryRoutes path _ hroute
  · obtain ⟨_, _, ⟨⟩, -, ha⟩ := Errand.decode_worker hd
    rw [Action.methods_of_decode ha]
    exact method_of_secondaryRoutes kind path _ hroute

/-- What is not only to be shown is not asked for with the methods that ask for nothing else. -/
theorem Request.method_ne_of_errand? {request : Request} {address : Address} {action : Action}
    (h : request.errand? = some (.worker address action)) (ha : action ≠ .display) :
    request.method ≠ .options ∧ request.method ≠ .head := by
  have hmethod := request.method_of_errand? h
  constructor
  · intro ho
    rw [ho, if_neg nofun] at hmethod
    cases action <;> simp [Action.methods] at hmethod
  · intro ho
    rw [ho, if_pos rfl] at hmethod
    cases action with
    | display => exact ha rfl
    | _ => simp [Action.methods] at hmethod

namespace Gateway

variable {request : Request} {address : Address} {o : Order} {x : Response}

/-- What is done for a request that is not only to show something is what is done with the worker. -/
theorem handle_of_errand? {action : Action} (h : request.errand? = some (.worker address action))
    (ha : action ≠ .display) (layout : List Socket) :
    handle layout request = (serve address request.body action).bind .done := by
  obtain ⟨e, he, hd⟩ := Option.bind_eq_some_iff.1 h
  have hdecode : e.decode = .ok (.worker address action) := by
    rcases hr : e.decode with y | e' <;> rw [hr] at hd <;> cases hd
    rfl
  have hrs : (routes request.target.segments).isEmpty = false := by
    obtain ⟨r, hr, -⟩ := Option.map_eq_some_iff.1 he
    exact List.isEmpty_eq_false_iff.2 (List.ne_nil_of_mem (List.mem_of_find?_eq_some hr))
  have hattend : attend layout request e = serve address request.body action := by
    rw [attend, hdecode]
    rfl
  obtain ⟨ho, hh⟩ := request.method_ne_of_errand? h ha
  simp [handle, ho, hh, hrs, he, hattend]

/-- What an order is answered with at once, the request is answered with. -/
theorem handle_of_order (h : request.errand? = some (.worker address (.order o)))
    (hx : carryOut address o request.body = .done x) (layout : List Socket) :
    handle layout request = .done x := by
  rw [handle_of_errand? h nofun]
  change (carryOut address o request.body).bind .done = _
  rw [hx]
  rfl

/-- A body that cannot be read is refused at once. -/
theorem carryOut_of_parse {bytes : Bytes} {e : Failure} (hb : Body.parse bytes = .error e)
    (hl : bytes.length ≤ bodyLimit) : carryOut address o bytes = .done (.failure e) := by
  rw [carryOut, if_neg (Nat.not_lt.2 hl), hb]

/-- A body that is too long is refused at once. -/
theorem carryOut_of_long {bytes : Bytes} (hl : bodyLimit < bytes.length) :
    carryOut address o bytes = .done .bodyTooLong := by
  rw [carryOut, if_pos hl]

end Gateway

namespace Service

open Broker

variable {asked : Nat → Service} {timeout : Nat} {past : List (Deed Upshot)} {b : Broker Upshot}

/-- What is answered at once takes one step in any state. -/
theorem step_of_handle {layout : List Socket} {request : Request} {x : Response}
    (hx : Gateway.handle layout request = .done x) {c : Nat}
    (hp : b.phase? c = some (.running (Service.request layout request).program)) :
    b.step (.run c) = some (b.setPhase c (.finished (.response x))) := by
  simp only [program, hx, Program.done_bind] at hp
  exact (Makes.runs hp).step

/-- A request that is refused touches nothing: every move that was made for it left the registry, the
members, the connections and the other calls as they were, and no line was written for it. And if the
body of an order cannot be read, the answer is the same in every state: that the body is malformed,
unless it was too long to be read at all. -/
theorem refused_spares (hr : Run (fun _ => Starts asked) (fresh timeout) past b) :
    (∀ c layout request x, asked c = .request layout request →
      b.phase? c = some (.finished (.response x)) → x.IsRefusal past c →
      ∀ d ∈ past, (∀ l line, ¬d.Writes c l line) ∧
        (d.before.mover? d.move = some c →
          ∀ b', d.before.step d.move = some b' → d.Spares c b')) ∧
    ∀ request address o e, request.errand? = some (.worker address (.order o)) →
      Body.parse request.body = .error e →
      (Response.failure e).status = 400 ∧
      ∀ layout (b : Broker Upshot) c,
        b.phase? c = some (.running (Service.request layout request).program) →
        b.step (.run c) = some (b.setPhase c (.finished (.response
          (if request.body.length ≤ bodyLimit then .failure e else .bodyTooLong)))) := by
  constructor
  · intro c layout request x hc hend hx d hd
    exact spares_of_refusal hr hc hx hend hd
  · intro request address o e he hb
    constructor
    · have hparse := Body.reads_parse request.body
      rw [hb] at hparse
      rw [Response.status_failure]
      exact hparse
    · intro layout b c hp
      refine step_of_handle (Gateway.handle_of_order he ?_ layout) hp
      split
      · exact Gateway.carryOut_of_parse hb ‹_›
      · exact Gateway.carryOut_of_long (Nat.lt_of_not_le ‹_›)

/-- A worker of kind `nfv` is asked for what only one of kind `vf` has, and once more with a body that
is no JSON. -/
def refusing : Nat → Service
  | 0 => .operation (.registerSecondary 0)
  | 1 => .request [] ⟨.get, .ofText "/v1/vfs/1", []⟩
  | _ => .request [] ⟨.put, .ofText "/v1/nfvs/1/forward", "x".toUTF8.toList⟩

theorem refused_spares_when_refusing :
    ∃ past b, Run (fun _ => Starts refusing) (fresh 5) past b ∧
      b.registry = [(1, ⟨0, .nfv, 1⟩)] ∧
      (response? 1 b).map Response.status = some 404 ∧
      (response? 2 b).map Response.status = some 400 ∧
      ∀ c ∈ [1, 2], ∀ d ∈ past, d.before.mover? d.move = some c →
        ∀ b', d.before.step d.move = some b' → d.Spares c b' := by
  obtain ⟨past, b, hr, hreg, hsilent, h₁, h₂⟩ :
      ∃ past b, Run (fun _ => Starts refusing) (fresh 5) past b ∧
        b.registry = [(1, ⟨0, .nfv, 1⟩)] ∧
        (∀ e ∈ log past, e.ticket?.map Ticket.call ≠ some 2) ∧
        (response? 1 b).map Response.status = some 404 ∧
        (response? 2 b).map Response.status = some 400 :=
    exists_run_of_enact refusing
      (nfvArrives ++ ([none, none, some (.run 1), some (.run 2), some (.run 1)] :
        List (Option (Move Upshot))))
      (by decide +kernel)
  refine ⟨past, b, hr, hreg, h₁, h₂, fun c hc d hd => ?_⟩
  obtain ⟨hspares, -⟩ := refused_spares hr
  obtain ⟨x₁, hx₁, hs₁⟩ := Option.map_eq_some_iff.1 h₁
  obtain ⟨x₂, hx₂, hs₂⟩ := Option.map_eq_some_iff.1 h₂
  rcases List.mem_pair.1 hc with rfl | rfl
  · exact (hspares 1 _ _ x₁ rfl (phase?_of_response? hx₁) (.inl hs₁) d hd).2
  · refine (hspares 2 _ _ x₂ rfl (phase?_of_response? hx₂) (.inr (.inr ⟨hs₂, ?_⟩)) d hd).2
    rintro ⟨d', hd', t, l, raw, detail, reply, ht, hevent, -⟩
    refine hsilent _ (List.mem_filterMap.2 ⟨d', hd', hevent⟩) ?_
    rw [← ht]
    rfl

/-- A request with a body that is no JSON and one byte longer than a body may be. -/
def longRequest : Request :=
  ⟨.put, .ofText "/v1/primary/forward", List.replicate (bodyLimit + 1) 0x78⟩

theorem parse_of_x (rest : Bytes) :
    Body.parse (0x78 :: rest) =
      .error (.keyInvalid "body" (Halt.message (0x78 :: rest) ⟨.expectedValue, rest⟩)) := by
  have hread : Json.read (0x78 :: rest) = .error ⟨.expectedValue, rest⟩ := by
    simp [Json.read, Json.readValue, skipBlanks, isJsonBlank, Json.readScalar]
  rw [Body.parse, hread]
  rfl

/-- A body may be malformed and yet be refused for its length, with another status and text. -/
theorem unreadable_but_too_long :
    longRequest.errand? = some (.worker .primary (.order .forward)) ∧
      (∃ e, Body.parse longRequest.body = .error e ∧ (Response.failure e).status = 400) ∧
      (∀ layout, Gateway.handle layout longRequest = .done .bodyTooLong) ∧
      Response.bodyTooLong.status = 413 := by
  have hsegments : longRequest.target.segments = ["v1", "primary", "forward"] := by
    change (Target.ofText "/v1/primary/forward").segments = _
    decide +kernel
  have herrand : longRequest.errand? = some (.worker .primary (.order .forward)) := by
    rw [Request.errand?, hsegments]
    rfl
  refine ⟨herrand, ⟨_, parse_of_x (List.replicate bodyLimit 0x78), ?_⟩, ?_, rfl⟩
  · rw [Response.status_failure]
    rfl
  · refine Gateway.handle_of_order herrand (Gateway.carryOut_of_long ?_)
    rw [longRequest, List.length_replicate]
    omega

end Service

end WorkerBroker
