import WorkerBroker.Proofs.Services
/-!
# Whom requests reach

A request about a worker reaches the worker that its path names and nobody else, with a command that
workers of this kind understand (`Service.reaches_addressee`). The two tables that have to agree on
this, the routes and what each kind of worker understands, were compared in `Proofs.Requests`. What
is left to see is that the member whose kind and id the path gives is the one that was registered
when it was looked up, and that a request does not turn to two.
-/

namespace WorkerBroker

/-- A line is written for a call on a connection. -/
def Deed.Writes {ω : Type} (d : Deed ω) (c l : Nat) (line : String) : Prop :=
  ∃ t : Ticket, t.call = c ∧ d.event? = some (.wrote t l line)

instance {ω : Type} (d : Deed ω) (c l : Nat) (line : String) : Decidable (d.Writes c l line) :=
  match h : d.event? with
  | some (.wrote t k s) =>
    decidable_of_iff (t.call = c ∧ k = l ∧ s = line) <| by
      simp only [Deed.Writes, h, Option.some.injEq, Event.wrote.injEq]
      constructor
      · rintro ⟨hc, hl, hs⟩
        exact ⟨t, hc, rfl, hl, hs⟩
      · rintro ⟨u, hc, rfl, hl, hs⟩
        exact ⟨hc, hl, hs⟩
  | some (.answered _ _) | some (.ended _ _ _) | none =>
    isFalse <| by
      rintro ⟨t, -, ht⟩
      cases h.symm.trans ht

/-- A member turns to a command that it understands, and the line of the command is written on its
connection. -/
structure Deed.Tells {ω : Type} (d : Deed ω) (r : Ref) (c l : Nat) (line : String) : Prop where
  served : d.move = .serve r.number
  kind : (d.before.member r.number).kind = r.kind
  id : (d.before.member r.number).id = r.id
  channel : (d.before.member r.number).channel.map Channel.link = some l
  command : ∃ command : Command, command.supportedBy r.kind ∧ line = command.line ∧
    ∃ leg, d.before.queued? ⟨c, leg⟩ = some command

namespace Service

open Broker

variable {asked : Nat → Service} {timeout c : Nat} {past : List (Deed Upshot)}
  {b b' : Broker Upshot} {layout : List Socket} {request : Request}

/-- Once a command has been sent for a call after which only turns come, there is no other. -/
theorem same_of_leads {past' : List (Deed Upshot)} {r : Ref}
    {commands commands' : List (Ref × Command)} {next next' : List Outcome → Program Upshot}
    (hr : Run (fun _ => Starts asked) (fresh timeout) past b)
    (hr' : Run (fun _ => Starts asked) b past' b')
    (hq : b.left? c = some (.wait (.converse commands) next))
    (hq' : b'.left? c = some (.wait (.converse commands') next'))
    (hn : ∀ outcomes, (next outcomes).Within (Request.IsClosing r) (Request.IsTurnOn r)
      fun _ => True) : commands' = commands := by
  rcases hr.leads hr' hq with hgone | ⟨steps, q, hsome, hpath, -⟩
  · rw [left?_of_phase hgone] at hq'
    cases hq'
  · obtain rfl := Option.some.inj (hq'.symm.trans hsome)
    cases hpath with
    | refl => rfl
    | wait hpath =>
      obtain ⟨⟨turn, hturn⟩, -⟩ := (hn _).leads hpath
      cases hturn

/-- When commands have been sent for a request about a worker, there is one. -/
theorem tells_of_converse (hr : Run (fun _ => Starts asked) (fresh timeout) past b)
    (hc : asked c = .request layout request) (hw : request.IsForWorker)
    {commands : List (Ref × Command)} {next : List Outcome → Program Upshot}
    (hq : b.left? c = some (.wait (.converse commands) next)) :
    ∃ r command, commands = [(r, command)] ∧ request.Tells r command ∧
      (∃ d ∈ past, d.move = .run c ∧ Table.find? r.id d.before.registry = some r) ∧
      ∀ outcomes, (next outcomes).Within (Request.IsClosing r) (Request.IsTurnOn r)
        fun _ => True :=
  (converses hr hc hq).resolve_left fun h => h.1 hw

/-- At no two times a request is at different commands. -/
theorem same_of_converse (hr : Run (fun _ => Starts asked) (fresh timeout) past b)
    (hc : asked c = .request layout request) (hw : request.IsForWorker) {d d' : Deed Upshot}
    (hd : d ∈ past) (hd' : d' ∈ past) {commands commands' : List (Ref × Command)}
    {next next' : List Outcome → Program Upshot}
    (hq : d.before.left? c = some (.wait (.converse commands) next))
    (hq' : d'.before.left? c = some (.wait (.converse commands') next')) :
    commands' = commands := by
  -- one of the two moves was made first, and what was left after it sends nothing more
  rcases hr.between hd hd' with ⟨p, q, hp, hpq⟩ | ⟨p, q, hp, hpq⟩
  · obtain ⟨r, command, -, -, -, hn⟩ := tells_of_converse hp hc hw hq
    exact same_of_leads hp hpq hq hq' hn
  · obtain ⟨r, command, -, -, -, hn⟩ := tells_of_converse hp hc hw hq'
    exact (same_of_leads hp hpq hq' hq hn).symm

/-- A line that is written for a request about a worker tells the addressee what was asked for. -/
theorem tells_of_writes (hr : Run (fun _ => Starts asked) (fresh timeout) past b)
    (hc : asked c = .request layout request) (hw : request.IsForWorker) {d : Deed Upshot}
    (hd : d ∈ past) {l : Nat} {line : String} (h : d.Writes c l line) :
    ∃ r command next, d.before.left? c = some (.wait (.converse [(r, command)]) next) ∧
      request.Tells r command ∧
      (∃ d ∈ past, d.move = .run c ∧ Table.find? r.id d.before.registry = some r) ∧
      d.Tells r c l line := by
  obtain ⟨t, rfl, hevent⟩ := h
  obtain ⟨r, command, commands, next, hm, hch, hline, hq, hleg, hleft⟩ := of_wrote hr hd hevent hc
  obtain ⟨past₁, past₂, rfl, hr₁, -⟩ := hr.cut hd
  obtain ⟨r', command', rfl, htells, ⟨d₀, hd₀, hfound⟩, -⟩ := tells_of_converse hr₁ hc hw hleft
  have hmem : (r, command) = (r', command') := List.mem_singleton.1 (List.mem_of_getElem? hleg)
  cases hmem
  obtain ⟨phase, hphase, hleft'⟩ := Option.bind_eq_some_iff.1 hleft
  obtain ⟨-, hkind, hid⟩ :=
    (steady hr₁).1.genuine_of_wait hphase hleft' r (List.mem_singleton_self r)
  rw [member_standing] at hkind hid
  refine ⟨r, command, next, hleft, htells, ⟨d₀, List.mem_append_left _ hd₀, hfound⟩, hm, hkind, hid,
    ?_, command, htells.supported, hline, t.leg, hq⟩
  rw [hch]
  rfl

/-- What a request is answered with is no complaint about a command that the worker does not know;
and when something went wrong inside, a command was on its way that the worker does know. -/
theorem known_of_response (hr : Run (fun _ => Starts asked) (fresh timeout) past b)
    (hc : asked c = .request layout request) {x : Response}
    (hx : b.phase? c = some (.finished (.response x))) :
    (∀ worker verb, x ≠ .failure (.unsupported worker verb)) ∧
      (x.status = 500 → ∃ d ∈ past, ∃ commands next,
        d.before.left? c = some (.wait (.converse commands) next)) := by
  obtain ⟨steps, p, hp, hqp, hplausible, hmade⟩ := path_of_request hr hc (left?_of_phase hx)
  -- a request that has its response is at the end of its program
  cases p with
  | act a next => cases hqp
  | wait w next => cases hqp
  | done x' =>
    cases hqp
    rcases (Gateway.answers_handle layout request).of_done hp hplausible with
      ⟨-, hstatus⟩ | hstatus | ⟨commands, outcomes, hmem, hafter⟩
    · refine ⟨fun w v he => hstatus ?_, fun h => absurd h hstatus⟩
      rw [he]
      rfl
    · refine ⟨fun w v he => ?_, fun h => ?_⟩
      · rw [he] at hstatus
        cases hstatus
      · rw [hstatus] at h
        cases h
    · obtain ⟨-, d, hd, next, hleft⟩ := hmade _ hmem
      exact ⟨hafter.understood, fun _ => ⟨d, hd, commands, next, hleft⟩⟩

/-- A request about a worker reaches at most the worker that its path names: all lines that are
written for it go to one member, which was registered when it was looked up, by the kind and the id
that the path gives, and they are those of commands that workers of this kind understand. It is never
answered that the worker does not know the command; where the response says that something went wrong
inside, a command was on its way that the worker does know. -/
theorem reaches_addressee (hr : Run (fun _ => Starts asked) (fresh timeout) past b)
    (hc : asked c = .request layout request) (hw : request.IsForWorker) :
    ((∀ d ∈ past, ∀ l line, ¬d.Writes c l line) ∨
      ∃ r, request.addressee? = some (r.kind, r.id) ∧
        (∃ d ∈ past, d.move = .run c ∧ Table.find? r.id d.before.registry = some r) ∧
        ∀ d ∈ past, ∀ l line, d.Writes c l line → d.Tells r c l line) ∧
    ∀ x, b.phase? c = some (.finished (.response x)) →
      (∀ worker verb, x ≠ .failure (.unsupported worker verb)) ∧
      (x.status = 500 → ∃ d ∈ past, ∃ r command next, command.supportedBy r.kind ∧
        request.addressee? = some (r.kind, r.id) ∧
        d.before.left? c = some (.wait (.converse [(r, command)]) next)) := by
  constructor
  · -- the first line that is found tells who the addressee is, and every other goes to the same
    by_cases h : ∃ d ∈ past, ∃ l line, d.Writes c l line
    · obtain ⟨d, hd, l, line, hwrites⟩ := h
      obtain ⟨r, command, next, hleft, htells, hfound, -⟩ := tells_of_writes hr hc hw hd hwrites
      refine .inr ⟨r, htells.addressee, hfound, ?_⟩
      intro d' hd' l' line' hwrites'
      obtain ⟨r', command', next', hleft', -, -, ht⟩ := tells_of_writes hr hc hw hd' hwrites'
      have hsame := same_of_converse hr hc hw hd hd' hleft hleft'
      cases hsame
      exact ht
    · left
      intro d hd l line hwrites
      exact h ⟨d, hd, l, line, hwrites⟩
  · intro x hx
    obtain ⟨hknown, hwrong⟩ := known_of_response hr hc hx
    refine ⟨hknown, ?_⟩
    intro h
    obtain ⟨d, hd, commands, next, hleft⟩ := hwrong h
    obtain ⟨past₁, past₂, rfl, hr₁, -⟩ := hr.cut hd
    obtain ⟨r, command, rfl, htells, -⟩ := tells_of_converse hr₁ hc hw hleft
    exact ⟨d, hd, r, command, next, htells.supported, htells.addressee, hleft⟩

/-- A request that tells the worker of kind `nfv` and id 1 to forward. -/
def forwardRequest : Request :=
  ⟨.put, .ofText "/v1/nfvs/1/forward", "\x7b\"action\": \"start\"\x7d".toUTF8.toList⟩

/-- The worker connects, and the request comes. -/
def forwarding : Nat → Service
  | 0 => .operation (.registerSecondary 0)
  | 1 => .request [] forwardRequest
  | _ => .primary

theorem reaches_addressee_when_forwarding :
    ∃ past b, Run (fun _ => Starts forwarding) (fresh 5) past b ∧
      response? 1 b = some .noContent ∧
      ∃ d ∈ past, ∃ r, r.kind = .nfv ∧ r.id = 1 ∧ d.Tells r 1 0 "forward" := by
  obtain ⟨past, b, hr, ⟨d, hd, hwrites⟩, hx⟩ :
      ∃ past b, Run (fun _ => Starts forwarding) (fresh 5) past b ∧
        (∃ d ∈ past, d.Writes 1 0 "forward") ∧ response? 1 b = some .noContent :=
    exists_run_of_enact forwarding
      (nfvTold ++ ([some (.signal 0 (.bytes "1".toUTF8.toList)), some (.receive 1 0),
        some (.run 1)] : List (Option (Move Upshot))))
      (by decide +kernel)
  have hpath : forwardRequest.IsForWorker :=
    ⟨"nfvs", by simp, ["1", "forward"], by decide +kernel⟩
  have hnfv : forwardRequest.addressee? = some (.nfv, 1) := by decide +kernel
  obtain ⟨hnone | ⟨r, haddressee, -, htells⟩, -⟩ := reaches_addressee hr (c := 1) rfl hpath
  · exact absurd hwrites (hnone d hd 0 "forward")
  · obtain ⟨hkind, hid⟩ := Prod.mk.inj (Option.some.inj (hnfv.symm.trans haddressee))
    exact ⟨past, b, hr, hx, d, hd, r, hkind.symm, hid.symm, htells d hd 0 "forward" hwrites⟩

end Service

end WorkerBroker
