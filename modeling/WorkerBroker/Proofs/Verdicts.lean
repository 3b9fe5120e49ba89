import WorkerBroker.Proofs.Completion
import WorkerBroker.Proofs.Hands
import WorkerBroker.Proofs.Refusals
/-!
# What the answer to a command says

A request that tells a worker something is answered by what the worker did with it. The status 204
says that a reply was read which reports no error, 400 that the reply reports one, and 500 that no
reply was read. One line is written, if the worker had a connection that could be written on when its
turn came, and none otherwise. And there is an answer, whatever the worker does, if only the request
is not given up (`Service.reports_what_was_done`).

`Gateway.Conveys` is what is done for such a request, whatever it is for: the worker is looked up,
and told. The rest is `Service.conversation`, read for one command.
-/

namespace WorkerBroker

/-! ## Requests that tell a worker something -/

/-- The response of a request is what its program has come to. -/
theorem Program.Leads.of_response {p : Program Response} {steps : List Step} {x : Response}
    (h : (p.bind fun x => .done (Upshot.response x)).Leads steps (.done (.response x))) :
    p.Leads steps (.done x) := by
  obtain ⟨y, hp, hy⟩ := h.of_map_done
  cases hy
  exact hp

theorem Program.bind_done {ω : Type} (p : Program ω) : p.bind .done = p := by
  induction p with
  | done x => rfl
  | act a next ih => exact congrArg (act a) (funext ih)
  | wait w next ih => exact congrArg (wait w) (funext ih)

/-- The command that something to be done with a worker comes to, if all checks are passed. To show
the status of the worker is not to tell it something. -/
def Action.command? (kind : WorkerKind) (bytes : Bytes) : Action → Option Command
  | .display => none
  | .exit => some .exit
  | .clear => some .clear
  | .resetPatches => some .resetPatches
  | .stopComponent name => (Body.checkName "name" name).toOption.map .stopComponent
  | .order o =>
    if bytes.length ≤ bodyLimit then
      (Body.parse bytes).toOption.bind fun body => (o.command kind body).toOption
    else none

/-- A request tells a worker something and is valid: whoever the path names is told this. -/
structure Request.Commands (request : Request) (address : Address) (action : Action)
    (command : Command) : Prop where
  errand : request.errand? = some (.worker address action)
  command : action.command? address.kind request.body = some command

namespace Action

/-- What is done when the worker has answered. -/
def epilogue (r : Ref) (answer : Except Failure Json) : Action → Program Unit
  | .exit => Program.afterExit r answer
  | _ => .done ()

/-- A member is told something, and the answer is passed on. -/
def tell (a : Action) (r : Ref) (command : Command) : Program Response :=
  (Program.execute r command).bind fun answer =>
    (a.epilogue r answer).bind fun _ => .done (.ofDone answer)

theorem ne_display_of_command? {kind : WorkerKind} {bytes : Bytes} {a : Action} {command : Command}
    (h : a.command? kind bytes = some command) : a ≠ .display := by
  rintro rfl
  cases h

theorem asks_of_command? {kind : WorkerKind} {bytes : Bytes} {a : Action} {command : Command}
    (h : a.command? kind bytes = some command) : a.Asks kind bytes command := by
  cases a with
  | display => cases h
  | exit | clear | resetPatches =>
    cases h
    rfl
  | stopComponent name =>
    have hname := Body.reads_checkName "name" name
    simp only [command?] at h
    rcases hn : Body.checkName "name" name with e | s <;> rw [hn] at h hname <;> cases h
    obtain ⟨rfl, htoken⟩ := hname
    exact ⟨htoken, rfl⟩
  | order o =>
    simp only [command?] at h
    split at h
    · rcases hb : Body.parse bytes with e | body <;> rw [hb] at h
      · cases h
      · have horder := (o.reads_command : Reads (o.Yields kind body) (o.command kind body))
        simp only [Except.toOption, Option.bind_some] at h
        rcases hc : o.command kind body with e | c <;> rw [hc] at h horder <;> cases h
        exact ⟨body, hb, horder⟩
    · cases h

end Action

/-- The kind of the worker that an address names is that of the address. -/
theorem Address.kind_of_identity? {address : Address} {who : Identity}
    (h : address.identity? = some who) : who.1 = address.kind := by
  cases address with
  | primary =>
    cases h
    rfl
  | secondary kind id =>
    obtain ⟨n, -, rfl⟩ := Option.map_eq_some_iff.1 h
    rfl

namespace Gateway

open Program

/-- What is done for a request to tell a worker something: the worker that the path names is looked
up, and told if it is there. -/
inductive Conveys (address : Address) (action : Action) (command : Command) :
    Program Response → Prop where
  | nobody {x : Response} (hi : address.identity? = none) (hx : x.status = 404) :
      Conveys address action command (.done x)
  | looksUp {who : Identity} {next : Option Ref → Program Response}
      (hi : address.identity? = some who)
      (hmissing : ∀ found : Option Ref, Act.Plausible (.find who.2) found →
        (∀ r, found = some r → r.kind ≠ who.1) →
        ∃ x, next found = .done x ∧ x.status = 404)
      (hfound : ∀ r, r.id = who.2 → r.kind = who.1 → next (some r) = action.tell r command) :
      Conveys address action command (.act (.find who.2) next)

variable {address : Address} {action : Action} {command : Command}

theorem status_notFound (what : String) : (Response.failure (.notFound what)).status = 404 := rfl

/-- The worker is told what the member that was found is told. -/
theorem conveys_withMember {f : Ref → Program Response}
    (hkind : ∀ kind id, address = .secondary kind id → kind.isSecondary)
    (hf : ∀ r, r.kind = address.kind → f r = action.tell r command) :
    Conveys address action command (withMember address f) := by
  cases address with
  | primary =>
    have hi : Address.primary.identity? = some (.primary, primaryId) := rfl
    refine .looksUp hi (fun found hp hno => ?_) fun r _ hr => ?_
    · rcases found with _ | r
      · exact ⟨_, rfl, status_notFound _⟩
      -- the kind is not looked at: it follows from the id
      · obtain ⟨hid, hproper⟩ := hp r rfl
        exact absurd (hproper.2 rfl) (hno r rfl)
    · exact hf r hr
  | secondary kind id =>
    simp only [withMember, Address.resolve]
    rcases hn : readU32 id with _ | n
    · refine .nobody ?_ (status_notFound _)
      rw [Address.identity?, hn]
      rfl
    · have hi : (Address.secondary kind id).identity? = some (kind, n) := by
        rw [Address.identity?, hn]
        rfl
      refine .looksUp hi (fun found hp hno => ?_) fun r _ hr => ?_
      · rcases found with _ | r
        · exact ⟨_, rfl, status_notFound _⟩
        · have hother : ¬(r.kind = kind && kind.isSecondary) = true := by
            simp [show r.kind ≠ kind from hno r rfl]
          refine ⟨_, ?_, status_notFound ("sec_id " ++ decimal n.toNat)⟩
          change (if _ then _ else _ : Program (Except Failure Ref)).bind _ = _
          rw [if_neg hother]
          rfl
      · have hsame : (r.kind = kind && kind.isSecondary) = true := by
          simp [show r.kind = kind from hr, hkind kind id rfl]
        change (if _ then _ else _ : Program (Except Failure Ref)).bind _ = _
        rw [if_pos hsame]
        exact hf r hr

/-- What is made of a valid action is its command. -/
theorem conveys_serve {bytes : Bytes}
    (hkind : ∀ kind id, address = .secondary kind id → kind.isSecondary)
    (h : action.command? address.kind bytes = some command) :
    Conveys address action command (serve address bytes action) := by
  -- what is sent is the command, and nothing follows
  have hsend : ∀ {order : WorkerKind → Except Failure Command}, order address.kind = .ok command →
      (∀ r answer, action.epilogue r answer = .done ()) →
      Conveys address action command (send address order) := by
    intro order horder hepilogue
    refine conveys_withMember hkind fun r hr => ?_
    rw [hr, horder]
    simp only [Action.tell, hepilogue, bind_def, done_bind, pure_def]
  cases action with
  | display => cases h
  | exit =>
    cases h
    refine conveys_withMember hkind fun r _ => ?_
    simp only [Program.exit, Action.tell, Action.epilogue, bind_def, bind_assoc, pure_def, done_bind]
  | clear | resetPatches =>
    cases h
    rw [serve]
    exact hsend rfl fun _ _ => rfl
  | stopComponent name =>
    rw [serve]
    refine hsend ?_ fun _ _ => rfl
    simp only [Action.command?] at h
    rcases hn : Body.checkName "name" name with e | s <;> rw [hn] at h <;> cases h
    rfl
  | order o =>
    simp only [Action.command?] at h
    split at h
    · rename_i hlong
      rcases hb : Body.parse bytes with e | body <;> rw [hb] at h
      · cases h
      · simp only [Except.toOption, Option.bind_some] at h
        rcases hc : o.command address.kind body with e | c <;> rw [hc] at h <;> cases h
        -- the keys that are looked at first are looked at again
        have hkeys : Body.requireAll body o.requiredKeys = .ok () := by
          rw [Order.command] at hc
          rcases hp : o.checkPath with e | u <;> rw [hp] at hc
          · cases hc
          · rcases hk : Body.requireAll body o.requiredKeys with e | u'
            · simp only [hk] at hc
              cases hc
            · rfl
        simp only [serve, carryOut, if_neg (Nat.not_lt.2 hlong), hb, hkeys, ite_self]
        exact hsend hc fun _ _ => rfl
    · cases h

/-- A path below a collection names a secondary. -/
theorem isSecondary_of_errand? {request : Request} {kind : WorkerKind} {id : String}
    {action : Action} (h : request.errand? = some (.worker (.secondary kind id) action)) :
    kind.isSecondary := by
  obtain ⟨m, e, hmem, -, hd⟩ := request.of_errand? h
  rcases mem_routes hmem with ⟨-, -, -, hno⟩ | ⟨path, action', -, -, rfl⟩ |
    ⟨collection, text, path, kind', action', -, -, hk, -, rfl⟩
  · cases e with
    | worker address' action' => exact absurd rfl (hno address' action')
    | _ => cases hd
  · obtain ⟨_, _, ⟨⟩, ha, -⟩ := Errand.decode_worker hd
    cases ha
  · obtain ⟨_, _, ⟨⟩, ha, -⟩ := Errand.decode_worker hd
    simp only [Address.decode] at ha
    rcases hid : decodeSegment "sec_id" text with _ | s <;> rw [hid] at ha <;> cases ha
    unfold collectionKind? at hk
    split_ifs at hk <;> cases hk <;> rfl

/-- A valid request to tell a worker something is done so. -/
theorem conveys_handle {request : Request} (h : request.Commands address action command)
    (layout : List Socket) : Conveys address action command (handle layout request) := by
  rw [handle_of_errand? h.errand (Action.ne_display_of_command? h.command), bind_done]
  refine conveys_serve (fun kind id ha => ?_) h.command
  subst ha
  exact isSecondary_of_errand? h.errand

namespace Conveys

variable {p : Program Response} {steps : List Step} {x : Response}

/-- A member is told something and then seen to. -/
theorem tell_eq {r : Ref} (hs : command.supportedBy r.kind) :
    action.tell r command = .wait (.converse [(r, command)]) fun outcomes =>
      (action.epilogue r (judge r command (outcomes.headD (.error .closed)))).bind fun _ =>
        .done (.ofDone (judge r command (outcomes.headD (.error .closed)))) := by
  rw [Action.tell, execute, if_pos hs]
  rfl

/-- Who is answered without a command was told that nobody is there, and nobody was. -/
theorem of_done (h : Conveys address action command p) (hs : command.supportedBy address.kind)
    (hp : p.Leads steps (.done x)) (hanswers : ∀ e ∈ steps, e.IsPlausible)
    (hmute : ∀ e ∈ steps, e.IsMute) :
    x.status = 404 ∧ ∀ who, address.identity? = some who → ∃ found,
      .act (.find who.2) found ∈ steps ∧ ∀ r, found = some r → r.kind ≠ who.1 := by
  cases h with
  | nobody hi hx =>
    obtain ⟨-, hq⟩ := hp.of_done
    cases hq
    exact ⟨hx, fun who hw => by cases hi.symm.trans hw⟩
  | @looksUp who next hi hmissing hfound =>
    cases hp with
    | @act _ _ found steps _ hp =>
      have hfind : Act.Plausible (.find who.2) found := hanswers _ List.mem_cons_self
      by_cases hno : ∀ r, found = some r → r.kind ≠ who.1
      · obtain ⟨y, hy, hstatus⟩ := hmissing found hfind hno
        rw [hy] at hp
        obtain ⟨-, hq⟩ := hp.of_done
        cases hq
        refine ⟨hstatus, fun who' hw => ?_⟩
        obtain rfl := Option.some.inj (hi.symm.trans hw)
        exact ⟨found, List.mem_cons_self, hno⟩
      · -- whoever is there is told, and that is a step that is not mute
        simp only [not_forall, not_not] at hno
        obtain ⟨r, rfl, hkind⟩ := hno
        rw [hfound r (hfind r rfl).1 hkind,
          tell_eq (by rwa [hkind, Address.kind_of_identity? hi])] at hp
        cases hp with
        | wait _ => exact (hmute _ (List.mem_cons_of_mem _ List.mem_cons_self)).elim

/-- The command that is sent is for the member that was looked up, and the answer says what it has
come to. -/
theorem of_converse {commands : List (Ref × Command)} {next : List Outcome → Program Response}
    (h : Conveys address action command p) (hs : command.supportedBy address.kind)
    (hp : p.Leads steps (.wait (.converse commands) next))
    (hanswers : ∀ e ∈ steps, e.IsPlausible) (hmute : ∀ e ∈ steps, e.IsMute) :
    ∃ r, address.identity? = some (r.kind, r.id) ∧ .act (.find r.id) (some r) ∈ steps ∧
      commands = [(r, command)] ∧ ∀ outcomes, next outcomes =
        (action.epilogue r (judge r command (outcomes.headD (.error .closed)))).bind fun _ =>
          .done (.ofDone (judge r command (outcomes.headD (.error .closed)))) := by
  cases h with
  | nobody _ _ => cases hp
  | @looksUp who afterwards hi hmissing hfound =>
    cases hp with
    | @act _ _ found steps _ hp =>
      have hfind : Act.Plausible (.find who.2) found := hanswers _ List.mem_cons_self
      by_cases hno : ∀ r, found = some r → r.kind ≠ who.1
      · obtain ⟨y, hy, -⟩ := hmissing found hfind hno
        rw [hy] at hp
        cases hp
      · simp only [not_forall, not_not] at hno
        obtain ⟨r, rfl, hkind⟩ := hno
        have hid : r.id = who.2 := (hfind r rfl).1
        rw [hfound r hid hkind, tell_eq (by rwa [hkind, Address.kind_of_identity? hi])] at hp
        cases hp with
        | refl =>
          refine ⟨r, ?_, ?_, rfl, fun outcomes => rfl⟩
          · rw [hi, hkind, hid]
          · rw [hid]
            exact List.mem_cons_self
        | wait _ => exact (hmute _ (List.mem_cons_of_mem _ List.mem_cons_self)).elim

/-- When a member was told something and has been seen to, the answer is what it has come to. -/
theorem eq_ofDone_of_leads {r : Ref} {answer : Except Failure Json}
    (h : ((action.epilogue r answer).bind fun _ => .done (.ofDone answer)).Leads steps (.done x)) :
    x = .ofDone answer := by
  obtain ⟨_, _, _, -, -, h⟩ := h.of_bind
  obtain ⟨-, hq⟩ := h.of_done
  cases hq
  rfl

/-- The status 400 stands for what a worker has reported. -/
theorem rejected_of_status {r : Ref} {o : Outcome}
    (h : (Response.ofDone (judge r command o)).status = 400) :
    ∃ detail reply, judge r command o = .error (.rejected detail reply) := by
  rcases o with s | raw
  · cases h
  · rw [judge] at h ⊢
    rcases hd : decodeReply raw with e | value <;> rw [hd] at h
    · obtain ⟨detail, reply, rfl⟩ := rejected_of_decodeReply hd
      exact ⟨detail, reply, rfl⟩
    · cases h

/-- Before a request is answered with what a worker has reported, it is at its look-up or at its
command, or it is over. -/
theorem of_reported {q : Program Response} {rest : List Step}
    (h : Conveys address action command p) (hs : command.supportedBy address.kind)
    (hp : p.Leads steps q) (hq : q.Leads rest (.done x)) (hx : x.status = 400)
    (hanswers : ∀ e ∈ steps, e.IsPlausible) :
    q.IsQuiet ∨ ∃ r next, q = .wait (.converse [(r, command)]) next ∧
      ∀ s steps, ¬(next [.error s]).Leads steps (.done x) := by
  cases h with
  | nobody _ _ =>
    obtain ⟨-, rfl⟩ := hp.of_done
    exact .inl trivial
  | @looksUp who afterwards hi hmissing hfound =>
    cases hp with
    | refl => exact .inl trivial
    | @act _ _ found steps _ hp =>
      have hfind : Act.Plausible (.find who.2) found := hanswers _ List.mem_cons_self
      by_cases hno : ∀ r, found = some r → r.kind ≠ who.1
      · obtain ⟨y, hy, -⟩ := hmissing found hfind hno
        rw [hy] at hp
        obtain ⟨-, rfl⟩ := hp.of_done
        exact .inl trivial
      · simp only [not_forall, not_not] at hno
        obtain ⟨r, rfl, hkind⟩ := hno
        rw [hfound r (hfind r rfl).1 hkind,
          tell_eq (by rwa [hkind, Address.kind_of_identity? hi])] at hp
        cases hp with
        | refl =>
          -- without a reply the status is another one
          refine .inr ⟨r, _, rfl, fun s steps hl => ?_⟩
          rw [eq_ofDone_of_leads hl] at hx
          cases hx
        | @wait _ _ outcomes _ _ hp =>
          -- nothing follows from what the worker has reported
          beta_reduce at hp
          rw [eq_ofDone_of_leads (hp.trans hq)] at hx
          obtain ⟨detail, reply, hrejected⟩ := rejected_of_status hx
          have hepilogue : action.epilogue r (.error (.rejected detail reply)) = .done () := by
            cases action <;> rfl
          rw [hrejected, hepilogue] at hp
          obtain ⟨-, rfl⟩ := hp.of_done
          exact .inl trivial

end Conveys

end Gateway

/-! ## What can be seen of one command -/

/-- The line that is written for a call, and the connection that it is written on. -/
def Event.lineFor? (c : Nat) : Event → Option (Nat × String)
  | .wrote t l line => if t.call = c then some (l, line) else none
  | _ => none

/-- The lines that were written for a call, each with its connection. -/
def linesFor (c : Nat) (log : List Event) : List (Nat × String) :=
  log.filterMap (Event.lineFor? c)

/-- A reply was read for a call. -/
def HasHeard {ω : Type} (past : List (Deed ω)) (c : Nat) (raw : Bytes) : Prop :=
  ∃ t l, t.call = c ∧ .ended t l (.ok raw) ∈ log past

/-- A call that has heard nothing hears nothing in a silent run. -/
theorem Broker.Endless.IsSilent.not_hasHeard {ω : Type} {allowed : Broker ω → Move ω → Prop}
    {b : Broker ω} {h : Endless allowed b} {past : List (Deed ω)} {c : Nat} {raw : Bytes}
    (hs : h.IsSilent) (hno : ¬HasHeard past c raw) (n : Nat) :
    ¬HasHeard (past ++ h.past n) c raw := by
  rintro ⟨t, l, hc, he⟩
  rw [log, List.filterMap_append, List.mem_append] at he
  rcases he with he | he
  · exact hno ⟨t, l, hc, he⟩
  · exact hs.not_mem_log n t l raw he

section

variable {ω : Type} {b : Broker ω} {past : List (Deed ω)} {log : List Event} {events : List Event}
  {c n : Nat} {command : Command} {o : Outcome} {raw : Bytes}

/-- All that is seen of a call is seen of its first command, if there is no other. -/
theorem ticket_eq_of_one (hno : ∀ i, 1 ≤ i → eventsOf ⟨c, i⟩ log = []) {e : Event} (he : e ∈ log)
    {t : Ticket} (ht : e.ticket? = some t) (hc : t.call = c) : t = ⟨c, 0⟩ := by
  obtain ⟨k, i⟩ := t
  obtain rfl : k = c := hc
  rcases Nat.eq_zero_or_pos i with rfl | hi
  · rfl
  · have hmem : e ∈ eventsOf ⟨k, i⟩ log := List.mem_filter.2 ⟨he, by simp [ht]⟩
    rw [hno i hi] at hmem
    cases hmem

theorem linesFor_of_one (hno : ∀ i, 1 ≤ i → eventsOf ⟨c, i⟩ log = []) :
    linesFor c log = linesFor c (eventsOf ⟨c, 0⟩ log) := by
  rw [linesFor, linesFor, eventsOf, List.filterMap_filter]
  refine List.filterMap_congr fun e he => ?_
  split
  · rfl
  · rename_i hticket
    cases e with
    | wrote t l line =>
      refine if_neg fun hc => hticket ?_
      rw [ticket_eq_of_one hno he rfl hc]
      simp [Event.ticket?]
    | _ => rfl

theorem hasHeard_of_one (hno : ∀ i, 1 ≤ i → eventsOf ⟨c, i⟩ (WorkerBroker.log past) = []) :
    HasHeard past c raw ↔
      ∃ l, .ended ⟨c, 0⟩ l (.ok raw) ∈ eventsOf ⟨c, 0⟩ (WorkerBroker.log past) := by
  constructor
  · rintro ⟨t, l, hc, he⟩
    obtain rfl := ticket_eq_of_one hno he rfl hc
    exact ⟨l, List.mem_filter.2 ⟨he, by simp [Event.ticket?]⟩⟩
  · rintro ⟨l, he⟩
    exact ⟨_, l, rfl, (List.mem_filter.1 he).1⟩

/-- A member has one current connection at most. -/
theorem Broker.Current.eq {l l' : Nat} (h : b.Current n l) (h' : b.Current n l') : l = l' := by
  cases h.symm.trans h'
  rfl

/-- The line of a command is written if there is a connection for it. -/
theorem Spoken.lines {i : Nat} (h : Spoken b ⟨c, i⟩ n command events (.ended o)) :
    (∀ l, b.Usable n l → linesFor c events = [(l, command.line)]) ∧
      ((∀ l, ¬b.Usable n l) → linesFor c events = []) := by
  cases h with
  | refused hno s => exact ⟨fun l hu => absurd hu.1 (hno l), fun _ => rfl⟩
  | broken k hcur hw =>
    refine ⟨fun l hu => absurd ?_ hw, fun _ => rfl⟩
    rw [hcur.eq hu.1]
    exact hu.2
  | ended k o hu =>
    refine ⟨fun l hl => ?_, fun hno => absurd hu (hno k)⟩
    rw [hl.1.eq hu.1]
    simp [linesFor, Event.lineFor?]

/-- The outcome of a command is what was read for it. -/
theorem Spoken.heard_iff {t : Ticket} (h : Spoken b t n command events (.ended o)) :
    (∃ l, .ended t l (.ok raw) ∈ events) ↔ o = .ok raw := by
  cases h with
  | refused _ _ | broken _ _ _ => simp
  | ended k o _ => simp [eq_comm]

theorem Exchanged.heard_iff {t : Ticket} (h : Exchanged past t n command events (.ended o)) :
    (∃ l, .ended t l (.ok raw) ∈ events) ↔ o = .ok raw := by
  cases h with
  | served _ _ hspoken => exact hspoken.heard_iff

end

/-! ## What is made of an outcome -/

/-- An answer says what was heard from a member that was told something. -/
structure Response.Reports (heard : Bytes → Prop) (r : Ref) (command : Command) (x : Response) :
    Prop where
  /-- the worker has replied, and reports no error -/
  accepts : x.status = 204 ↔ ∃ raw value, heard raw ∧ decodeReply raw = .ok value
  empty : x.status = 204 → x = .noContent
  /-- the worker has replied that something is wrong, and its reply is passed on -/
  refuses : x.status = 400 ↔ ∃ raw detail reply, heard raw ∧
    decodeReply raw = .error (.rejected detail reply)
  passes : ∀ raw detail reply, heard raw → decodeReply raw = .error (.rejected detail reply) →
    x = ⟨400, some .json, none, reply.text⟩
  /-- the worker has not replied -/
  fails : x.status = 500 ↔ ∀ raw, ¬heard raw
  explains : x.status = 500 → ∃ s : Silence,
    x = .text 500 (Failure.noReply r.label command.verb s.reason).message

namespace Response

variable {heard : Bytes → Prop} {r : Ref} {command : Command} {raw : Bytes}

theorem reports_of_silence (s : Silence) (h : ∀ raw, ¬heard raw) :
    (text 500 (Failure.noReply r.label command.verb s.reason).message).Reports heard r command where
  accepts := iff_of_false nofun fun ⟨raw, _, hraw, _⟩ => h raw hraw
  empty := nofun
  refuses := iff_of_false nofun fun ⟨raw, _, _, hraw, _⟩ => h raw hraw
  passes := fun raw _ _ hraw => absurd hraw (h raw)
  fails := iff_of_true rfl h
  explains := fun _ => ⟨s, rfl⟩

theorem reports_of_value {value : Json} (h : ∀ raw', heard raw' ↔ raw' = raw)
    (hd : decodeReply raw = .ok value) : noContent.Reports heard r command := by
  have hok : ∀ {raw' detail reply}, heard raw' →
      decodeReply raw' ≠ .error (.rejected detail reply) := by
    intro raw' detail reply hraw' hd'
    rw [(h raw').1 hraw', hd] at hd'
    cases hd'
  exact {
    accepts := iff_of_true rfl ⟨raw, value, (h raw).2 rfl, hd⟩
    empty := fun _ => rfl
    refuses := iff_of_false nofun fun ⟨_, _, _, hraw', hd'⟩ => hok hraw' hd'
    passes := fun _ _ _ hraw' hd' => absurd hd' (hok hraw')
    fails := iff_of_false nofun fun hno => hno raw ((h raw).2 rfl)
    explains := nofun }

theorem reports_of_error {detail : String} {reply : Json} (h : ∀ raw', heard raw' ↔ raw' = raw)
    (hd : decodeReply raw = .error (.rejected detail reply)) :
    (failure (.rejected detail reply)).Reports heard r command where
  accepts := iff_of_false nofun fun ⟨raw', _, hraw', hok⟩ => by
    rw [(h raw').1 hraw', hd] at hok
    cases hok
  empty := nofun
  refuses := iff_of_true rfl ⟨raw, detail, reply, (h raw).2 rfl, hd⟩
  passes := fun raw' detail' reply' hraw' hd' => by
    rw [(h raw').1 hraw', hd] at hd'
    cases hd'
    rfl
  fails := iff_of_false nofun fun hno => hno raw ((h raw).2 rfl)
  explains := nofun

/-- The answer to a command reports what was heard. -/
theorem reports_ofDone {o : Outcome} (r : Ref) (command : Command)
    (h : ∀ raw, heard raw ↔ o = .ok raw) :
    (ofDone (Program.judge r command o)).Reports heard r command := by
  rcases o with s | raw
  · exact reports_of_silence s fun raw hraw => by cases (h raw).1 hraw
  · have hheard : ∀ raw', heard raw' ↔ raw' = raw := fun raw' => by
      rw [h, Except.ok.injEq, eq_comm]
    rw [Program.judge]
    rcases hd : decodeReply raw with e | value
    · obtain ⟨detail, reply, rfl⟩ := rejected_of_decodeReply hd
      exact reports_of_error hheard hd
    · exact reports_of_value hheard hd

end Response

/-! ## Members without a connection -/

/-- In this move a member is given another connection. -/
def Deed.Installs {ω : Type} (d : Deed ω) (n : Nat) : Prop :=
  ∃ b', d.before.step d.move = some b' ∧ (b'.member n).channel ≠ none ∧
    (b'.member n).channel ≠ (d.before.member n).channel

/-- The command that a member turns to in this move comes to nothing: no line is written for it, and
it is over without a reply. -/
def Deed.Fails {ω : Type} (d : Deed ω) (n : Nat) (t : Ticket) : Prop :=
  d.event? = none ∧
    ∃ s, d.before.step d.move = some (d.before.conclude n t (.error s))

namespace Broker

variable {ω : Type} {a b b' : Broker ω} {m : Move ω} {n : Nat} {past : List (Deed ω)}
  {allowed : Broker ω → Move ω → Prop} {timeout : Nat}

/-- In a run from the beginning no connection gets ahead of its member. -/
theorem Run.dated (hr : Run (fun _ => allowed) (fresh timeout) past b) : b.standing.Dated := by
  induction hr with
  | nil => exact nofun
  | snoc m _ _ hm ih => exact (standing_step hm).dated ih

/-- A member without a current connection has none until it is given one. -/
theorem not_current_step (hd : b.standing.Dated) (h : ∀ l, ¬b.Current n l)
    (hm : b.step m = some b') (hno : ¬Deed.Installs ⟨b, m⟩ n) : ∀ l, ¬b'.Current n l := by
  intro l hcur
  have hsame : (b.member n).channel = some ⟨l, (b'.member n).generation⟩ := by
    by_contra hne
    refine hno ⟨b', hm, ?_, fun he => hne (he.symm.trans hcur)⟩
    rw [hcur]
    exact nofun
  -- the connection is the same, so the member would have gone back to an earlier generation
  have hle : (b'.member n).generation ≤ (b.member n).generation := by
    rw [← channel_standing] at hsame
    have hdated := hd n _ hsame
    rwa [generation_standing] at hdated
  have hge := (standing_step hm).generation_le n
  rw [generation_standing, generation_standing] at hge
  exact h l (by rw [Current, hsame, Nat.le_antisymm hle hge])

/-- So it goes on while nobody gives it one. -/
theorem Run.not_current (hr : Run (fun _ => allowed) a past b) (hd : a.standing.Dated)
    (ha : ∀ l, ¬a.Current n l) (hno : ∀ f ∈ past, ¬f.Installs n) :
    b.standing.Dated ∧ (∀ l, ¬b.Current n l) ∧ ∀ f ∈ past, ∀ l, ¬f.before.Current n l := by
  induction hr with
  | nil => exact ⟨hd, ha, nofun⟩
  | @snoc past b b' m _ _ hm ih =>
    obtain ⟨hdated, hcur, hpast⟩ := ih fun f hf => hno f (List.mem_append_left _ hf)
    refine ⟨(standing_step hm).dated hdated, not_current_step hdated hcur hm ?_, fun f hf => ?_⟩
    · exact hno _ (List.mem_append_right _ (List.mem_singleton_self _))
    · rcases List.mem_append.1 hf with hf | hf
      · exact hpast f hf
      · rw [List.mem_singleton.1 hf]
        exact hcur

/-- A command for a member without a current connection comes to nothing. -/
theorem fails_of_not_current {d : Deed ω} {t : Ticket} {command : Command}
    (hturn : d.TurnsTo n t command) (h : ∀ l, ¬d.before.Current n l) : d.Fails n t := by
  obtain ⟨b, m⟩ := d
  obtain ⟨rfl, hfront, hqueued⟩ := hturn
  obtain ⟨rest, hn⟩ := List.head?_eq_some_iff.1 hfront
  obtain ⟨legs, next, r, hp, hl⟩ : ∃ legs next r, b.phase? t.call = some (.conversing legs next) ∧
      legs[t.leg]? = some ⟨r, command, .queued⟩ := by
    change b.queued? t = some command at hqueued
    rw [queued?] at hqueued
    split at hqueued
    · rename_i legs next hp
      split at hqueued
      · rename_i r c hl
        cases hqueued
        exact ⟨legs, next, r, hp, hl⟩
      · cases hqueued
    · cases hqueued
  have hstep := (Makes.begins hn hp hl).step
  rw [Deed.Fails, Deed.event?_serve hn, serving, hqueued, hstep, beginExchange]
  rcases hch : (b.member n).channel with _ | ⟨l, g⟩
  · exact ⟨rfl, .closed, rfl⟩
  · have hg : g ≠ (b.member n).generation := by
      rintro rfl
      exact h l hch
    simp only [hg, if_false, ne_eq, not_false_eq_true, if_true]
    exact ⟨trivial, .replaced, rfl⟩

theorem closed_of_isOpen {l : Nat} (h : b.standing.IsOpen l) : (b.link l).closed = false := by
  change (b.links.map Link.closed)[l]? = some false at h
  rw [List.getElem?_map] at h
  obtain ⟨x, hx, hclosed⟩ := Option.map_eq_some_iff.1 h
  rw [link, hx]
  exact hclosed

/-- Since a move of a call a member has no current connection, and no command gets through to it
until it is given one. -/
def Severed (b : Broker ω) (allowed : Broker ω → Move ω → Prop) (past : List (Deed ω)) (c n : Nat) :
    Prop :=
  ∃ p e q, past = p ++ e :: q ∧ e.before.mover? e.move = some c ∧
    ∀ later b', Run (fun _ => allowed) b later b' → (∀ f ∈ q ++ later, ¬f.Installs n) →
      (∀ l, ¬b'.Current n l) ∧
        ∀ f ∈ q ++ later, ∀ t command, f.TurnsTo n t command → f.Fails n t

/-- Who was left without a connection stays without one. -/
theorem Run.severed {c : Nat} (hr : Run (fun _ => allowed) (fresh timeout) past b)
    (h : Unplugged past c n) : b.Severed allowed past c n := by
  obtain ⟨p, e, q, rfl, hc, hcut⟩ := h
  refine ⟨p, e, q, rfl, hc, fun later b' hlater hno => ?_⟩
  obtain ⟨x, hx, hrest⟩ := hr.of_append
  obtain ⟨rfl, a, hm, hq⟩ := hrest.of_cons
  obtain ⟨-, hcur, hpast⟩ := (hq.append hlater).not_current ((standing_step hm).dated hx.dated)
    (hcut a hm) hno
  exact ⟨hcur, fun f hf t command hturn => fails_of_not_current hturn (hpast f hf)⟩

/-- A member keeps its connection if nothing is done to it. -/
theorem Run.standing_member (hr : Run (fun _ => allowed) a past b)
    (h : ∀ f ∈ past, ∀ b', f.before.step f.move = some b' →
      b'.standing.member n = f.before.standing.member n) :
    b.standing.member n = a.standing.member n := by
  induction hr with
  | nil => rfl
  | @snoc past b b' m _ _ hm ih =>
    rw [h ⟨b, m⟩ (List.mem_append_right _ (List.mem_singleton_self _)) b' hm]
    exact ih fun f hf => h f (List.mem_append_left _ hf)

/-- A command that does not end without a reply leaves everybody's connections as they are. -/
theorem still_of_converse {c : Nat} {r : Ref} {command : Command}
    {next : List Outcome → Program ω} (ho : b.InOrder)
    (hleft : b.left? c = some (.wait (.converse [(r, command)]) next))
    (hc : b.mover? m = some c) (hm : b.step m = some b') (hstay : b'.phase? c ≠ some .abandoned)
    (hok : ∀ s, b'.phase? c ≠ some (.running (next [.error s]))) :
    b'.standing = b.standing := by
  have ha : ∀ k, m ≠ .abandon k := by
    rintro k rfl
    cases hc
    exact hstay (phase?_of_abandon hm)
  obtain ⟨p, hp, hleft⟩ := Option.bind_eq_some_iff.1 hleft
  cases p with
  | running q =>
    cases hleft
    obtain ⟨rfl, rfl⟩ := step_of_running hp hc hm ha
    simp only [stepProgram, beginWait, standing_setPhase, standing_queueLegs]
  | conversing legs next' =>
    injection hleft with hleft
    injection hleft with hw hn
    injection hw with hlegs
    subst hn
    obtain ⟨i, leg, state, hl, hp', hstep⟩ := leg_step ho hp hc hm (ha c)
    refine hstep.costs.still fun s hs => hok s ?_
    obtain ⟨leg', rfl, -⟩ := List.map_eq_singleton_iff.1 hlegs
    rcases i with _ | i
    · rw [hp', hs]
      rfl
    · cases hl
  | entering r turn next' => cases hleft
  | greeting l d next' => cases hleft
  | finished x => cases hleft
  | abandoned => cases hleft

end Broker

/-- What spares all but a call leaves everybody's connections as they are. -/
theorem Deed.Spares.standing {ω : Type} {d : Deed ω} {c : Nat} {b' : Broker ω}
    (h : d.Spares c b') : b'.standing = d.before.standing := by
  rw [Broker.standing, Broker.standing, h.registry, h.members, h.links]

namespace Service

open Broker

variable {asked : Nat → Service} {timeout c : Nat} {past : List (Deed Upshot)}
  {b b' : Broker Upshot} {layout : List Socket} {request : Request} {address : Address}
  {action : Action} {command : Command} {x : Response}

/-- What was left of a request that has its response has led to it. -/
theorem leads_of_response {past₁ past₂ : List (Deed Upshot)} {a : Broker Upshot}
    {p : Program Response} (h₁ : Run (fun _ => Starts asked) (fresh timeout) past₁ a)
    (h₂ : Run (fun _ => Starts asked) a past₂ b)
    (hleft : a.left? c = some (p.bind fun x => .done (.response x)))
    (hend : b.phase? c = some (.finished (.response x))) : ∃ steps, p.Leads steps (.done x) := by
  rcases h₁.leads h₂ hleft with hgone | ⟨steps, q, hq, hpath, -⟩
  · cases hend.symm.trans hgone
  · obtain rfl := Option.some.inj ((left?_of_phase hend).symm.trans hq)
    exact ⟨steps, Program.Leads.of_response hpath⟩

/-- A worker understands what it is told. -/
theorem supported_of_commands (h : request.Commands address action command) :
    command.supportedBy address.kind :=
  Action.supported_of_asks (Action.asks_of_command? h.command)
    (Request.suits_of_errand? h.errand).2.2

/-- A valid request to tell a worker something that passes on what a worker has reported has left
everybody's connections as they are. -/
theorem still_of_reported (hr : Run (fun _ => Starts asked) (fresh timeout) past b)
    (hc : asked c = .request layout request) (hcommands : request.Commands address action command)
    (hend : b.phase? c = some (.finished (.response x))) (hx : x.status = 400) {d : Deed Upshot}
    (hd : d ∈ past) (hmover : d.before.mover? d.move = some c)
    (hm : d.before.step d.move = some b') : b'.standing = d.before.standing := by
  obtain ⟨past₁, past₂, rfl, h₁, h₂, hrest⟩ := hr.around hd hm
  have hstay : b'.phase? c ≠ some .abandoned := fun hgone => by
    cases hend.symm.trans (hrest.abandoned hgone)
  rcases hp : d.before.phase? c with _ | p
  · obtain ⟨program, refs, brings, hstart⟩ := start_of_mover hm hp hmover
    rw [hstart] at hm
    cases hm
    rfl
  have hs : command.supportedBy address.kind := supported_of_commands hcommands
  have hconveys := Gateway.conveys_handle hcommands layout
  rcases hq : p.left? with _ | q
  · rw [Phase.left?_eq_none.1 hq] at hp
    exact absurd (abandoned_step hm hp) hstay
  have hleft := (left?_of_phase hp).trans hq
  obtain ⟨s₁, p₁, hp₁, rfl, hanswers, -⟩ := path_of_request h₁ hc hleft
  -- what is left leads to the answer, before the move and after it
  have hfrom : Run (fun _ => Starts asked) d.before (d :: past₂) b := by
    obtain ⟨x, hx, hd⟩ := hr.of_append
    obtain ⟨rfl, -⟩ := hd.of_cons
    exact hd
  obtain ⟨s₂, hp₂⟩ := leads_of_response h₁ hfrom hleft hend
  rcases hconveys.of_reported hs hp₁ hp₂ hx hanswers with hquiet | ⟨r, next, rfl, hno⟩
  · refine (spares_of_quiet hm hmover (fun p' hp' => ?_) hstay).standing
    cases hp.symm.trans hp'
    exact ⟨_, hq, hquiet.map _⟩
  · refine still_of_converse (steady h₁).1.order hleft hmover hm hstay fun s hp' => ?_
    obtain ⟨steps, hsteps⟩ := leads_of_response h₂ hrest (left?_of_phase hp') hend
    exact hno s steps hsteps

/-- A valid request to tell a member something has been carried out: in this move the member turned
to the command, and this is what the answer says of it. -/
structure Delivers (asked : Nat → Service) (past : List (Deed Upshot)) (b : Broker Upshot) (c : Nat)
    (r : Ref) (command : Command) (x : Response) (d : Deed Upshot) (rest : List (Deed Upshot)) :
    Prop where
  turn : d.TurnsTo r.number ⟨c, 0⟩ command
  /-- one line is written if the member has a connection for it -/
  line : ∀ l, d.before.Usable r.number l → linesFor c (log past) = [(l, command.line)]
  noLine : (∀ l, ¬d.before.Usable r.number l) → linesFor c (log past) = []
  reports : x.Reports (HasHeard past c) r command
  /-- whoever has reported an error keeps its connection, if nobody else does anything to it -/
  keeps : x.status = 400 →
    (∀ f ∈ rest, f.before.mover? f.move ≠ some c → ∀ b', f.before.step f.move = some b' →
      b'.standing.member r.number = f.before.standing.member r.number) →
    ∃ l, d.before.Usable r.number l ∧ b.Current r.number l ∧
      ((b.link l).inbox.ending ≠ .reset → b.Usable r.number l)
  /-- whoever has not replied has no connection until it is given another one -/
  severed : x.status = 500 → b.Severed (Starts asked) past c r.number

/-- A command can be written on the current connection of a member unless the worker has reset it,
since whatever a member has is open. -/
theorem usable_of_current {n l : Nat} (hr : Run (fun _ => Starts asked) (fresh timeout) past b)
    (hcur : b.Current n l) (hreset : (b.link l).inbox.ending ≠ .reset) : b.Usable n l := by
  obtain ⟨hand, hhanded⟩ := handed hr
  have hopen := closed_of_isOpen (hhanded.held.channel _ _ (current_iff.1 hcur))
  exact ⟨hcur, by simp [Link.isWritable, hopen, hreset]⟩

/-- A member whose connection was current has kept it if nobody has done anything to it. -/
theorem keeps_of_reported {r : Ref} {past₁ rest : List (Deed Upshot)} {d : Deed Upshot} {l : Nat}
    (hr : Run (fun _ => Starts asked) (fresh timeout) (past₁ ++ d :: rest) b)
    (hown : ∀ f ∈ d :: rest, f.before.mover? f.move = some c → ∀ b',
      f.before.step f.move = some b' → b'.standing = f.before.standing)
    (hothers : ∀ f ∈ rest, f.before.mover? f.move ≠ some c → ∀ b', f.before.step f.move = some b' →
      b'.standing.member r.number = f.before.standing.member r.number)
    (hd : d.before.mover? d.move = some c) (hcur : d.before.Current r.number l) :
    b.Current r.number l ∧ ((b.link l).inbox.ending ≠ .reset → b.Usable r.number l) := by
  obtain ⟨x, hx, hrest⟩ := hr.of_append
  obtain ⟨rfl, -⟩ := hrest.of_cons
  have hsame : b.standing.member r.number = d.before.standing.member r.number := by
    refine hrest.standing_member fun f hf b' hm => ?_
    by_cases hc : f.before.mover? f.move = some c
    · rw [hown f hf hc b' hm]
    · rcases List.mem_cons.1 hf with rfl | hf
      · exact absurd hd hc
      · exact hothers f hf hc b' hm
  have hcur' : b.Current r.number l := by
    rw [current_iff, hsame]
    exact current_iff.1 hcur
  exact ⟨hcur', usable_of_current hr hcur'⟩

/-- What is judged of a command that a member has turned to has been carried out. -/
theorem delivers_of_spoken {r : Ref} {o : Outcome} {events : List Event}
    {past₁ rest : List (Deed Upshot)} {d : Deed Upshot}
    (hr : Run (fun _ => Starts asked) (fresh timeout) past b)
    (hc : asked c = .request layout request) (hcommands : request.Commands address action command)
    (hend : b.phase? c = some (.finished (.response (.ofDone (Program.judge r command o)))))
    (hd : past = past₁ ++ d :: rest) (hturn : d.TurnsTo r.number ⟨c, 0⟩ command)
    (hspoken : Spoken d.before ⟨c, 0⟩ r.number command events (.ended o))
    (hheard : ∀ raw, HasHeard past c raw ↔ ∃ l, .ended ⟨c, 0⟩ l (.ok raw) ∈ events)
    (hlines : linesFor c (log past) = linesFor c events)
    (hcut : ∀ s, o = .error s → Unplugged past c r.number) :
    Delivers asked past b c r command (.ofDone (Program.judge r command o)) d rest := by
  have hreports := Response.reports_ofDone r command fun raw =>
    (hheard raw).trans hspoken.heard_iff
  refine ⟨hturn, ?_, ?_, hreports, fun hstatus hothers => ?_, fun hstatus => ?_⟩
  · rw [hlines]
    exact hspoken.lines.1
  · rw [hlines]
    exact hspoken.lines.2
  · obtain ⟨raw, detail, reply, hraw, -⟩ := hreports.refuses.1 hstatus
    obtain rfl := hspoken.heard_iff.1 ((hheard raw).1 hraw)
    have hmover : d.before.mover? d.move = some c := by
      rw [hturn.move, mover?, hturn.front]
      rfl
    have hown : ∀ f ∈ d :: rest, f.before.mover? f.move = some c → ∀ b',
        f.before.step f.move = some b' → b'.standing = f.before.standing := fun f hf hc' b' hm =>
      still_of_reported hr hc hcommands hend hstatus (hd ▸ List.mem_append_right _ hf) hc' hm
    cases hspoken with
    | ended l _ hu =>
      rw [hd] at hr
      exact ⟨l, hu, keeps_of_reported hr hown hothers hmover hu.1⟩
  · obtain ⟨s, rfl⟩ : ∃ s, o = .error s := by
      rcases o with s | raw
      · exact ⟨s, rfl⟩
      · exact absurd ((hheard raw).2 (hspoken.heard_iff.2 rfl)) (hreports.fails.1 hstatus raw)
    exact hr.severed (hcut s rfl)

/-- What an answer to a request that tells a worker something says of what was done. Either nobody of
that kind and id was registered when the worker was looked up, or the member that was found has
turned to the command. -/
def Reported (asked : Nat → Service) (past : List (Deed Upshot)) (b : Broker Upshot) (c : Nat)
    (request : Request) (command : Command) (x : Response) : Prop :=
  (x.status = 404 ∧ linesFor c (log past) = [] ∧
    ∀ who, request.addressee? = some who → ∃ d ∈ past, d.move = .run c ∧
      ∀ r, Table.find? who.2 d.before.registry = some r → r.kind ≠ who.1) ∨
  ∃ r past₁ d rest, past = past₁ ++ d :: rest ∧ request.addressee? = some (r.kind, r.id) ∧
    (∃ e ∈ past, e.move = .run c ∧ Table.find? r.id e.before.registry = some r) ∧
    Delivers asked past b c r command x d rest

/-- What a request is answered with is a response. -/
theorem exists_response (hr : Run (fun _ => Starts asked) (fresh timeout) past b)
    (hc : asked c = .request layout request) {y : Upshot} (hend : b.phase? c = some (.finished y)) :
    ∃ x, y = .response x := by
  obtain ⟨steps, p, -, hy, -⟩ := path_of_request hr hc (left?_of_phase hend)
  cases p with
  | done x =>
    cases hy
    exact ⟨x, rfl⟩
  | act a next => cases hy
  | wait w next => cases hy

theorem reported (hr : Run (fun _ => Starts asked) (fresh timeout) past b)
    (hc : asked c = .request layout request) (hcommands : request.Commands address action command)
    (hend : b.phase? c = some (.finished (.response x))) :
    Reported asked past b c request command x := by
  have haddressee := (Request.suits_of_errand? hcommands.errand).2.1
  have hs := supported_of_commands hcommands
  have hconveys := Gateway.conveys_handle hcommands layout
  have hP : (asked c).program.AsksOnce := by
    rw [hc]
    exact (Gateway.asksOnce_handle layout request).bind fun _ => trivial
  rcases conversation hr hP with ⟨hnone, -⟩ | ⟨p, hp, hconv⟩
  · cases hend.symm.trans hnone
  obtain rfl := Option.some.inj (hend.symm.trans hp)
  rw [hc] at hconv
  have hanswers : ∀ {steps : List Step}, (∀ e ∈ steps, e.IsMute ∧ e.Made past c) →
      ∀ e ∈ steps, e.IsPlausible := fun h e he => isPlausible_of_made (steady hr).2 (h e he).2
  cases hconv with
  | before hpath hsteps hleft hstill hno =>
    cases hleft
    left
    obtain ⟨hstatus, hnobody⟩ := hconveys.of_done hs (Program.Leads.of_response hpath)
      (hanswers hsteps) fun e he => (hsteps e he).1
    refine ⟨hstatus, ?_, fun who hw => ?_⟩
    · rw [linesFor_of_one fun i _ => hno i, hno]
      rfl
    · obtain ⟨found, hfound, hkind⟩ := hnobody who (haddressee ▸ hw)
      obtain ⟨d, hd, hmove, -, hx⟩ := (hsteps _ hfound).2
      exact ⟨d, hd, hmove, fun r hr => hkind r (hx.symm.trans hr)⟩
  | @answered _ _ commands next outcomes steps rest hpath hsteps h hno hrest hmade hleft =>
    cases hleft
    right
    obtain ⟨p', hp', he⟩ := hpath.of_map
    cases p' with
    | done y => cases he
    | act a next' => cases he
    | wait w next' =>
      cases he
      obtain ⟨r, hi, hfound, rfl, hnext⟩ := hconveys.of_converse hs hp' (hanswers hsteps)
        fun e he => (hsteps e he).1
      obtain ⟨e, he, hmove, -, hfind⟩ := (hsteps _ hfound).2
      obtain ⟨o, ho, hexchanged⟩ := h 0 r command rfl
      have hx : x = .ofDone (Program.judge r command o) := by
        have hl := Program.Leads.of_response hrest
        rw [hnext] at hl
        rw [Gateway.Conveys.eq_ofDone_of_leads hl]
        cases outcomes with
        | nil => cases ho
        | cons o' os =>
          cases ho
          rfl
      have hheard : ∀ raw, HasHeard past c raw ↔
          ∃ l, .ended ⟨c, 0⟩ l (.ok raw) ∈ eventsOf ⟨c, 0⟩ (log past) := fun raw =>
        hasHeard_of_one hno
      have hlines : linesFor c (log past) = linesFor c (eventsOf ⟨c, 0⟩ (log past)) :=
        linesFor_of_one hno
      generalize eventsOf ⟨c, 0⟩ (log past) = events at hexchanged hheard hlines
      subst hx
      cases hexchanged with
      | @served past₁ rest d _ _ hd hturn hspoken hcut =>
        exact ⟨r, past₁, d, rest, hd, haddressee.trans hi, ⟨e, he, hmove, hfind⟩,
          delivers_of_spoken hr hc hcommands hend hd hturn hspoken hheard hlines fun s ho =>
            hcut s (congrArg _ ho)⟩

/-- The answer to a request that tells a worker something says what was done, and there is an answer,
whatever the worker does and whoever else is at work, if only the request is not given up. Either
nobody of that kind and id was registered when the worker was looked up, or the member that was found
has turned to the command, and then one line was written to it if it had a connection that could be
written on, and none otherwise. The answer is 204 if a reply was read that reports no error, 400 with
the reply if it reports one, and 500 if no reply was read, and in no other case. After 400 the member
still has its connection, unless somebody else has done something to it; after 500 it has none, and
no command gets through to it, until it is given another one. -/
theorem reports_what_was_done (hc : asked c = .request layout request)
    (hcommands : request.Commands address action command) :
    Yields asked (fresh timeout) c fun past b y =>
      ∃ x, y = .response x ∧ Reported asked past b c request command x := by
  refine yields .nil fun hr hend => ?_
  obtain ⟨x, rfl⟩ := exists_response hr hc hend
  exact ⟨x, rfl, reported hr hc hcommands hend⟩

/-- If a line was written and no reply was read, that is what the answer says. -/
theorem Reported.status_of_silence (h : Reported asked past b c request command x)
    (hline : linesFor c (log past) ≠ []) (hsilent : ∀ raw, ¬HasHeard past c raw) :
    x.status = 500 := by
  rcases h with ⟨-, hnone, -⟩ | ⟨r, _, _, _, -, -, -, h⟩
  · exact absurd hnone hline
  · exact h.reports.fails.2 hsilent

/-- A worker refuses to forward, and ends its stream when it is told again. -/
def reluctant : Nat → Service
  | 0 => .operation (.registerSecondary 0)
  | _ => .request [] forwardRequest

theorem commands_forwardRequest :
    forwardRequest.Commands (.secondary .nfv "1") (.order .forward) .forward := by
  constructor <;> decide +kernel

/-- The worker refuses when it has been told to forward, and ends its stream the next time. -/
def refusedThenEnded : List (Option (Move Upshot)) :=
  [some (.signal 0 (.bytes "\x7b\"results\": [\x7b\"result\": \"error\"\x7d]\x7d".toUTF8.toList)),
    some (.receive 1 0), some (.run 1), none, some (.run 2), some (.run 2), some (.serve 0),
    some (.signal 0 .ended), some (.receive 2 0), some (.run 2)]

/-- No exchange of a call has come to its end. -/
def hearsNothing (c : Nat) (log : List Event) : Bool :=
  log.all fun
    | .ended t _ _ => t.call ≠ c
    | _ => true

theorem not_hasHeard (h : hearsNothing c (log past)) (raw : Bytes) : ¬HasHeard past c raw := by
  rintro ⟨t, l, rfl, he⟩
  have hother := List.all_eq_true.1 h _ he
  simp at hother

/-- What the worker is told is answered if it refuses, if it ends its stream, and if it is silent for
ever. -/
theorem reports_what_was_done_when_reluctant :
    (∃ past b, Run (fun _ => Starts reluctant) (fresh 5) past b ∧
      (∃ raw detail reply, HasHeard past 1 raw ∧
        decodeReply raw = .error (.rejected detail reply)) ∧
      ∃ r : Ref, r.kind = .nfv ∧ r.id = 1 ∧ b.Severed (Starts reluctant) past 2 r.number) ∧
    ∃ past a, Run (fun _ => Starts reluctant) (fresh 5) past a ∧
      ∃ (h : Endless (Starts reluctant) a) (n : Nat) (x : Response),
        (h.state n).phase? 1 = some (.finished (.response x)) ∧ x.status = 500 := by
  have hyields {c : Nat} (hc : reluctant c = .request [] forwardRequest) :
      Yields reluctant (fresh 5) c _ := reports_what_was_done hc commands_forwardRequest
  constructor
  · obtain ⟨past, b, hr, h₁, h₂⟩ :
        ∃ past b, Run (fun _ => Starts reluctant) (fresh 5) past b ∧
          (response? 1 b).map Response.status = some 400 ∧
          (response? 2 b).map Response.status = some 500 :=
      exists_run_of_enact reluctant (nfvTold ++ refusedThenEnded) (by decide +kernel)
    obtain ⟨x₁, hx₁, hs₁⟩ := Option.map_eq_some_iff.1 h₁
    obtain ⟨x₂, hx₂, hs₂⟩ := Option.map_eq_some_iff.1 h₂
    have hnfv : forwardRequest.addressee? = some (.nfv, 1) := by decide +kernel
    obtain ⟨_, ⟨⟩, hreported₁⟩ := (hyields (c := 1) rfl).tells hr (phase?_of_response? hx₁)
    obtain ⟨_, ⟨⟩, hreported₂⟩ := (hyields (c := 2) rfl).tells hr (phase?_of_response? hx₂)
    refine ⟨past, b, hr, ?_, ?_⟩
    · rcases hreported₁ with ⟨hs, -⟩ | ⟨r, _, _, _, -, -, -, h⟩
      · cases hs₁.symm.trans hs
      · exact h.reports.refuses.1 hs₁
    · rcases hreported₂ with ⟨hs, -⟩ | ⟨r, _, _, _, -, hi, -, h⟩
      · cases hs₂.symm.trans hs
      · obtain ⟨hkind, hid⟩ := Prod.mk.inj (Option.some.inj (hnfv.symm.trans hi))
        exact ⟨r, hkind.symm, hid.symm, h.severed hs₂⟩
  · obtain ⟨past, a, ha, hline, hsilent, hgoes⟩ :
        ∃ past a, Run (fun _ => Starts reluctant) (fresh 5) past a ∧
          linesFor 1 (log past) ≠ [] ∧ hearsNothing 1 (log past) ∧ (a.left? 1).isSome :=
      exists_run_of_enact reluctant nfvTold (by decide +kernel)
    obtain ⟨h, hs⟩ := exists_silent reluctant a
    obtain ⟨n, y, hy, x, rfl, hreported⟩ :=
      (hyields (c := 1) rfl).comes ha hgoes hs.toIsFair (hs.kept 1)
    refine ⟨past, a, ha, h, n, x, hy, hreported.status_of_silence ?_ fun raw =>
      hs.not_hasHeard (not_hasHeard hsilent raw) n⟩
    rw [linesFor, log, List.filterMap_append, List.filterMap_append]
    exact List.append_ne_nil_of_left_ne_nil hline _

end Service

end WorkerBroker
