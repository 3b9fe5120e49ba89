import Mathlib.Data.List.Chain
import WorkerBroker.Http.Gateway
import WorkerBroker.Proofs.Judgements
import WorkerBroker.Proofs.Requests
import WorkerBroker.Proofs.Steady
/-!
# How requests are answered

Few things are ever done for a request, whatever it says, and they are done in a fixed order
(`Request.Answers`). It may be answered at once. If it is about one worker, that worker is looked up
by the kind and the id that the path gives, and then it is either answered or one command is sent,
the one that the request asks for and that workers of that kind understand. What remains after the
reply is to see to the end of the worker, at most. Any other request is a read over all members.

`Gateway.answers_handle` says this of every request. It is where the routes, the checks of paths and
bodies, and the look-up meet, and the only place where they have to be looked at together.
-/

namespace WorkerBroker

/-! ## Programs that keep within bounds -/

namespace Program

variable {ω α : Type}

/-- All acts, all waits and all results of the program are of this kind. -/
def Within (acts : Act → Prop) (waits : Wait → Prop) (ends : ω → Prop) : Program ω → Prop
  | done x => ends x
  | act a next => acts a ∧ ∀ x, (next x).Within acts waits ends
  | wait w next => waits w ∧ ∀ x, (next x).Within acts waits ends

variable {acts : Act → Prop} {waits : Wait → Prop} {ends : ω → Prop} {ends' : α → Prop}

theorem Within.bind {p : Program α} {f : α → Program ω} (h : p.Within acts waits ends')
    (hf : ∀ x, ends' x → (f x).Within acts waits ends) : (p.bind f).Within acts waits ends := by
  induction p with
  | done x => exact hf x h
  | act a next ih => exact ⟨h.1, fun x => ih x (h.2 x)⟩
  | wait w next ih => exact ⟨h.1, fun x => ih x (h.2 x)⟩

/-- A program that keeps within bounds keeps within wider ones. -/
theorem Within.mono {acts' : Act → Prop} {waits' : Wait → Prop} {p : Program ω}
    (h : p.Within acts waits ends) (ha : ∀ a, acts a → acts' a) (hw : ∀ w, waits w → waits' w) :
    p.Within acts' waits' ends := by
  induction p with
  | done x => exact h
  | act a next ih => exact ⟨ha a h.1, fun x => ih x (h.2 x)⟩
  | wait w next ih => exact ⟨hw w h.1, fun x => ih x (h.2 x)⟩

/-- Whatever is left of the program keeps within the bounds. -/
theorem Within.leads {p q : Program ω} {steps : List Step} (h : p.Within acts waits ends)
    (hl : p.Leads steps q) : q.Within acts waits ends := by
  induction hl with
  | refl p => exact h
  | act _ ih => exact ih (h.2 _)
  | wait _ ih => exact ih (h.2 _)

/-- All acts on a way through the program are of the kind. -/
theorem Within.act_of_mem {p q : Program ω} {steps : List Step} (h : p.Within acts waits ends)
    (hl : p.Leads steps q) {a : Act} {x : a.Answer} (ha : .act a x ∈ steps) : acts a := by
  induction hl with
  | refl p => cases ha
  | act _ ih =>
    rcases List.mem_cons.1 ha with e | ha
    · cases e
      exact h.1
    · exact ih (h.2 _) ha
  | wait _ ih =>
    rcases List.mem_cons.1 ha with e | ha
    · cases e
    · exact ih (h.2 _) ha

/-! ### Reads over all members -/

/-- A wait of a read over all members: a turn, or a question for the status of some. -/
def IsSurvey : Wait → Prop
  | .enter _ _ => True
  | .converse commands => ∀ q ∈ commands, q.2 = .status
  | .greet _ => False

/-- A program that reads over all members. -/
abbrev Surveys (p : Program α) : Prop :=
  p.Within (fun _ => True) IsSurvey fun _ => True

theorem surveys_unregisterDead (r : Ref) : (unregisterDead r).Surveys := by
  refine ⟨trivial, fun x => ?_⟩
  cases x with
  | true => exact ⟨trivial, fun _ => trivial⟩
  | false => trivial

theorem surveys_prune (ps : List Probe) : (prune ps).Surveys := by
  induction ps with
  | nil => trivial
  | cons p ps ih =>
    have hrest : ((prune ps).bind fun qs => done (p :: qs)).Surveys :=
      Within.bind ih fun _ _ => trivial
    simp only [prune]
    split
    · refine Within.bind (surveys_unregisterDead p.1) fun x _ => ?_
      cases x with
      | true => exact ih
      | false => exact hrest
    · exact hrest

theorem surveys_sweep (refs : List Ref) : (sweep refs).Surveys := by
  refine ⟨fun q hq => ?_, fun outcomes => surveys_prune _⟩
  obtain ⟨r, -, rfl⟩ := List.mem_map.1 hq
  rfl

theorem surveys_roster : roster.Surveys := ⟨trivial, fun _ => trivial⟩

theorem surveys_listing : listing.Surveys :=
  surveys_roster.bind fun _ _ => (surveys_sweep _).bind fun _ _ =>
    surveys_roster.bind fun _ _ => trivial

theorem surveys_cpuUsage : cpuUsage.Surveys :=
  surveys_roster.bind fun _ _ => (surveys_sweep _).bind fun _ _ => trivial

theorem surveys_cpuUnused (layout : List Socket) (master : Option UInt32) :
    (cpuUnused layout master).Surveys :=
  Within.bind surveys_cpuUsage fun _ _ => trivial

/-- A licence for nothing. -/
abbrev noLicence : Licence ω := ⟨none, none, false, fun _ => false⟩

/-- The reads over all members turn to nobody but those of the roster. -/
theorem regular_listing (shown : List Entry → ω) :
    (listing.bind fun x => done (shown x)).Regular [] :=
  have h : Obeys noLicence [] .nothing (listing.bind fun x => done (shown x)) :=
    obeys_listing fun _ _ => .inr (.inl ⟨rfl, rfl⟩)
  h.regular trivial

theorem regular_cpuUsage (shown : List Usage → ω) :
    (cpuUsage.bind fun x => done (shown x)).Regular [] :=
  have h : Obeys noLicence [] .nothing (cpuUsage.bind fun x => done (shown x)) :=
    obeys_cpuUsage fun _ _ => .inr (.inl ⟨rfl, rfl⟩)
  h.regular trivial

theorem regular_cpuUnused (layout : List Socket) (master : Option UInt32)
    (shown : List UnusedLcores → ω) :
    ((cpuUnused layout master).bind fun x => done (shown x)).Regular [] :=
  have h : Obeys noLicence [] .nothing ((cpuUnused layout master).bind fun x => done (shown x)) :=
    obeys_cpuUnused fun _ _ => .inr (.inl ⟨rfl, rfl⟩)
  h.regular trivial

end Program

/-! ## How a request is answered -/

/-- What a request may be answered with after the exchange with a worker: it may pass on an error,
but only one that the worker has reported. -/
structure Response.IsAfter (outcomes : List Outcome) (x : Response) : Prop where
  found : x.status ≠ 404
  admitted : x.status ≠ 405
  reported : x.status = 400 → ∃ raw detail reply, outcomes[0]? = some (.ok raw) ∧
    decodeReply raw = .error (.rejected detail reply)
  understood : ∀ worker command, x ≠ .failure (.unsupported worker command)

namespace Request

/-- An act that sees to the end of a member. -/
def IsClosing (r : Ref) (a : Act) : Prop :=
  a = .advance r ∨ a = .strike r

/-- A turn on a member. -/
def IsTurnOn (r : Ref) (w : Wait) : Prop :=
  ∃ turn, w = .enter r turn

/-- What is done for a request with the member that was found: it is answered at once, or it is told
what the request asks for and then seen to. -/
inductive Speaks (request : Request) (r : Ref) : Program Response → Prop where
  | atOnce {x : Response} (h : x.status ≠ 500) : Speaks request r (.done x)
  | tells {command : Command} {next : List Outcome → Program Response}
      (hs : command.supportedBy r.kind) (ha : request.Asks r.kind command)
      (hi : request.addressee? = some (r.kind, r.id))
      (h : ∀ outcomes, (next outcomes).Within (IsClosing r) (IsTurnOn r)
        (Response.IsAfter outcomes)) :
      Speaks request r (.wait (.converse [(r, command)]) next)

/-- What is done for a request: it is answered at once, or a member is looked up, or all members are
asked for their status. -/
inductive Answers (request : Request) : Program Response → Prop where
  | atOnce {x : Response} (h : x.status ≠ 500) : Answers request (.done x)
  | looksUp {id : UInt32} {next : Option Ref → Program Response}
      (hn : ∃ x, next none = .done x ∧ x.status ≠ 500)
      (hs : ∀ r, r.id = id → Identity.IsProper (r.kind, r.id) →
        request.Speaks r (next (some r))) :
      Answers request (.act (.find id) next)
  | surveys {p : Program Response} (hw : ¬request.IsForWorker)
      (hp : p.Within (fun _ => True) Program.IsSurvey fun x => x.status = 200)
      (hr : p.Regular []) : Answers request p

end Request

/-! ### What cannot be mistaken for a command that a worker does not know -/

/-- No `d` in a text is followed by an `o`. -/
abbrev HasNoDo (cs : List Char) : Prop :=
  cs.IsChain fun c c' => c = 'd' → c' ≠ 'o'

theorem HasNoDo.append {cs cs' : List Char} (h : HasNoDo cs) (h' : HasNoDo cs')
    (hd : cs'.head? ≠ some 'o') : HasNoDo (cs ++ cs') := by
  refine List.IsChain.append h h' fun x _ y hy _ hyo => hd ?_
  rw [← hyo]
  exact hy

theorem hasNoDo_of_not_mem {cs : List Char} (h : 'd' ∉ cs) : HasNoDo cs := by
  induction cs with
  | nil => exact .nil
  | cons c cs ih =>
    refine List.isChain_cons.2 ⟨fun y _ hc => absurd ?_ h, ih (List.not_mem_of_not_mem_cons h)⟩
    rw [hc]
    exact List.mem_cons_self

theorem Ref.not_mem_label (r : Ref) : 'd' ∉ r.label.toList := by
  -- the label is made of the name of the kind and a number
  have hdigits : 'd' ∉ Nat.toDigits 10 r.id.toNat := fun h =>
    absurd (Nat.isDigit_of_mem_toDigits (by omega) (by omega) h) (by decide)
  obtain ⟨number, kind, id⟩ := r
  cases kind <;>
    simp_all [Ref.label, workerLabel, WorkerKind.name, toList_decimal]

/-- Only a command that a worker does not know is reported with these words. -/
theorem message_ne_of_hasNoDo {s : String} (h : HasNoDo s.toList) (worker verb : String) :
    s ≠ (Failure.unsupported worker verb).message := by
  change s ≠ worker ++ " does not accept command: " ++ verb
  -- the words themselves have a `d` before an `o`
  rintro rfl
  simp only [String.toList_append, List.append_assoc] at h
  have hmid : HasNoDo " does not accept command: ".toList :=
    (List.isChain_append.1 (List.isChain_append.1 h).2.1).1
  simp at hmid

namespace Response

variable {outcomes : List Outcome} {x : Response} {r : Ref} {c : Command}

@[simp] theorem status_failure (e : Failure) : (failure e).status = e.status := by
  cases e <;> rfl

theorem status_notFound_ne (what : String) : (failure (.notFound what)).status ≠ 500 := by
  rw [status_failure]
  exact (by decide : 404 ≠ 500)

theorem status_refusal_ne {e : Failure} (h : e.status = 400) : (failure e).status ≠ 500 := by
  rw [status_failure, h]
  decide

/-- A response that is no error may come after anything. -/
theorem isAfter_of_lt (h : x.status < 400) : x.IsAfter outcomes where
  found := by omega
  admitted := by omega
  reported := by omega
  understood := by
    rintro w v rfl
    rw [status_failure] at h
    exact absurd h (Nat.lt_asymm (by decide : 400 < 500))

/-- Something may go wrong inside. -/
theorem isAfter_of_hasNoDo {e : Failure} (hs : e.status = 500) (h : HasNoDo e.message.toList) :
    (failure e).IsAfter outcomes where
  found := by simp [hs]
  admitted := by simp [hs]
  reported := by simp [hs]
  understood := fun w v he => by
    refine message_ne_of_hasNoDo h w v ?_
    cases e <;> first | exact congrArg Response.body he | cases hs

theorem hasNoDo_noReply (r : Ref) (c : Command) (s : Silence) :
    HasNoDo (Failure.noReply r.label c.verb s.reason).message.toList := by
  change HasNoDo (r.label ++ ": " ++ c.verb ++ ": no reply (" ++ s.reason ++ ")").toList
  simp only [String.toList_append, List.append_assoc]
  have hverb : HasNoDo c.verb.toList := by cases c <;> simp [Command.verb]
  have hreason : HasNoDo s.reason.toList := by cases s <;> simp [Silence.reason]
  have hclose : HasNoDo (s.reason.toList ++ ")".toList) := hreason.append (by simp) (by simp)
  have hopen : HasNoDo (": no reply (".toList ++ (s.reason.toList ++ ")".toList)) :=
    HasNoDo.append (by simp) hclose (by cases s <;> simp [Silence.reason])
  have hrest : HasNoDo (": ".toList ++ (c.verb.toList ++ (": no reply (".toList ++
      (s.reason.toList ++ ")".toList)))) :=
    HasNoDo.append (by simp) (hverb.append hopen (by simp)) (by cases c <;> simp [Command.verb])
  exact (hasNoDo_of_not_mem r.not_mem_label).append hrest (by simp)

/-- An answer that is an error may be passed on. -/
theorem isAfter_failure {e : Failure}
    (h : Program.judge r c (outcomes.headD (.error .closed)) = .error e) :
    (failure e).IsAfter outcomes := by
  -- without a reply something went wrong inside; with one the worker has reported the error
  rcases ho : outcomes.headD (.error .closed) with s | raw <;> rw [ho] at h
  · cases h
    exact isAfter_of_hasNoDo rfl (hasNoDo_noReply r c s)
  · obtain ⟨detail, reply, rfl⟩ := rejected_of_decodeReply h
    refine ⟨nofun, nofun, fun _ => ⟨raw, detail, reply, ?_, h⟩, fun w v he => ?_⟩
    · cases outcomes with
      | nil => cases ho
      | cons o os => exact congrArg some ho
    · exact absurd (congrArg Response.contentType he) nofun

theorem isAfter_ofDone :
    (ofDone (Program.judge r c (outcomes.headD (.error .closed)))).IsAfter outcomes := by
  rcases h : Program.judge r c (outcomes.headD (.error .closed)) with e | value
  · exact isAfter_failure h
  · exact isAfter_of_lt (by decide : 204 < 400)

theorem isAfter_withoutBody (h : x.IsAfter outcomes) : x.withoutBody.IsAfter outcomes where
  found := h.found
  admitted := h.admitted
  reported := h.reported
  understood := fun w v he => by
    have hbody : "" = w ++ " does not accept command: " ++ v := congrArg Response.body he
    simp at hbody

/-- A status is shown unless something is missing in it. -/
theorem eq_other_of_present {status : Json} {e : Failure} (h : present r status = .error e) :
    ∃ what, (what = ": malformed status" ∨ what = ": status without info") ∧
      e = .other (r.label ++ what) := by
  unfold present at h
  split at h
  · cases h
  · cases h
  · split at h <;> cases h
    exact ⟨_, .inl rfl, rfl⟩
  · split at h <;> cases h
    exact ⟨_, .inl rfl, rfl⟩
  · split at h <;> cases h
    exact ⟨_, .inr rfl, rfl⟩

/-- So may the status of a worker, or what is wrong with it. -/
theorem isAfter_present :
    (ofPayload (((Program.judge r .status (outcomes.headD (.error .closed))).bind
      (present r)).map Json.chars)).IsAfter outcomes := by
  rcases h : Program.judge r .status (outcomes.headD (.error .closed)) with e | status
  · exact isAfter_failure h
  · rcases hp : present r status with e | shown <;> simp only [Except.bind, hp, Except.map]
    · obtain ⟨what, hwhat, rfl⟩ := eq_other_of_present hp
      refine isAfter_of_hasNoDo (e := .other (r.label ++ what)) rfl ?_
      change HasNoDo (r.label ++ what).toList
      rw [String.toList_append]
      rcases hwhat with rfl | rfl
      · exact (hasNoDo_of_not_mem r.not_mem_label).append (by simp) (by simp)
      · exact (hasNoDo_of_not_mem r.not_mem_label).append (by simp) (by simp)
    · exact isAfter_of_lt (by decide : 200 < 400)

end Response

namespace Request

open Program Response

variable {request : Request} {r : Ref} {ends : Response → Prop}

/-! ### What is done with one member -/

/-- What is still to be done when a worker that was told to end has answered. -/
theorem within_afterExit (answer : Except Failure Json) :
    (afterExit r answer).Within (IsClosing r) (IsTurnOn r) fun _ => True := by
  cases answer with
  | ok value =>
    exact ⟨.inl rfl, fun _ => ⟨⟨_, rfl⟩, fun _ => ⟨.inr rfl, fun _ => trivial⟩⟩⟩
  | error e =>
    simp only [afterExit]
    split
    · refine ⟨⟨_, rfl⟩, fun retired => ?_⟩
      cases retired with
      | true => exact ⟨.inr rfl, fun _ => trivial⟩
      | false => trivial
    · trivial

/-- A command that the request asks for and the worker understands is sent. -/
theorem speaks_execute {c : Command} {f : Except Failure Json → Program Response}
    (ha : request.Asks r.kind c) (hs : c.supportedBy r.kind)
    (hi : request.addressee? = some (r.kind, r.id))
    (hf : ∀ outcomes, (f (judge r c (outcomes.headD (.error .closed)))).Within (IsClosing r)
      (IsTurnOn r) (IsAfter outcomes)) :
    request.Speaks r ((execute r c).bind f) := by
  rw [execute, if_pos hs]
  exact .tells hs ha hi hf

theorem speaks_display (ha : request.Asks r.kind .status)
    (hi : request.addressee? = some (r.kind, r.id)) : request.Speaks r (Gateway.display r) :=
  speaks_execute ha rfl hi fun _ => isAfter_present

theorem speaks_exit (ha : request.Asks r.kind .exit)
    (hi : request.addressee? = some (r.kind, r.id)) :
    request.Speaks r ((exit r).bind fun answer => .done (.ofDone answer)) := by
  simp only [exit, bind_def, bind_assoc]
  exact speaks_execute ha rfl hi fun _ => (within_afterExit _).bind fun _ _ => isAfter_ofDone

/-! ### Finding the member -/

/-- What is done with the member that the path names is done with nobody else. -/
theorem answers_withMember {address : Address} {f : Ref → Program Response}
    (hi : request.addressee? = address.identity?)
    (hf : ∀ r, r.kind = address.kind → request.addressee? = some (r.kind, r.id) →
      request.Speaks r (f r)) : request.Answers (Gateway.withMember address f) := by
  cases address with
  | primary =>
    -- the kind is not looked at: it follows from the id
    refine .looksUp ⟨_, rfl, status_notFound_ne _⟩ fun r hid hproper => ?_
    have hkind : r.kind = .primary := hproper.2 hid
    refine hf r hkind ?_
    rw [hi, hkind, hid]
    rfl
  | secondary kind id =>
    simp only [Gateway.withMember, Address.resolve]
    rcases hn : readU32 id with _ | n
    · exact .atOnce (status_notFound_ne _)
    -- who has the id but is of another kind is as good as not found
    · refine .looksUp ⟨_, rfl, status_notFound_ne _⟩ fun r hid _ => ?_
      change request.Speaks r ((if (r.kind = kind && kind.isSecondary) = true then
        .done (.ok r) else .done (.error (.notFound _)) : Program (Except Failure Ref)).bind _)
      split
      · rename_i hkind
        simp only [Bool.and_eq_true, decide_eq_true_eq] at hkind
        refine hf r hkind.1 ?_
        rw [hi, hkind.1, hid, Address.identity?, hn]
        rfl
      · exact .atOnce (status_notFound_ne _)

/-! ### Actions -/

/-- What is made of an action is a command that the request asks for. -/
theorem answers_send {address : Address} {command : WorkerKind → Except Failure Command}
    (hi : request.addressee? = address.identity?)
    (hm : Reads (request.Asks address.kind) (command address.kind))
    (hs : ∀ c, request.Asks address.kind c → c.supportedBy address.kind) :
    request.Answers (Gateway.send address command) := by
  refine answers_withMember hi fun r hkind hr => ?_
  rw [← hkind] at hm hs
  rcases hc : command r.kind with e | c <;> rw [hc] at hm
  · exact .atOnce (status_refusal_ne hm)
  · exact speaks_execute hm (hs c hm) hr fun _ => isAfter_ofDone

/-- What is done with one worker. -/
theorem answers_serve {address : Address} {action : Action}
    (he : request.errand? = some (.worker address action)) :
    request.Answers (Gateway.serve address request.body action) := by
  obtain ⟨-, hi, hsuits⟩ := suits_of_errand? he
  have hs : ∀ c, request.Asks address.kind c → c.supportedBy address.kind := by
    rintro c ⟨address', action', he', ha⟩
    cases he.symm.trans he'
    exact Action.supported_of_asks ha hsuits
  have ha : ∀ {kind c}, action.Asks kind request.body c → request.Asks kind c :=
    fun h => ⟨address, action, he, h⟩
  cases action with
  | display => exact answers_withMember hi fun r _ hr => speaks_display (ha rfl) hr
  | exit => exact answers_withMember hi fun r _ hr => speaks_exit (ha rfl) hr
  | clear | resetPatches =>
    rw [Gateway.serve]
    refine answers_send hi ?_ hs
    exact ha rfl
  | stopComponent name =>
    rw [Gateway.serve]
    refine answers_send hi ((Body.reads_checkName "name" name).map ?_) hs
    rintro _ ⟨rfl, ht⟩
    exact ha ⟨ht, rfl⟩
  | order o =>
    simp only [Gateway.serve, Gateway.carryOut]
    split
    · exact .atOnce (by decide)
    · have hparse := (Body.reads_parse request.body).eq
      rcases hb : Body.parse request.body with e | value <;> rw [hb] at hparse
      · exact .atOnce (status_refusal_ne hparse)
      · have hkeys : Reads (fun _ => True)
            (if o.keysFirst then Body.requireAll value o.requiredKeys else .ok ()) := by
          split
          · exact Body.reads_requireAll value o.requiredKeys
          · trivial
        dsimp only
        split
        · rename_i e hk
          rw [hk] at hkeys
          exact .atOnce (status_refusal_ne hkeys)
        · exact answers_send hi (o.reads_command.mono fun c hy => ha ⟨value, hb, hy⟩) hs

/-! ### All requests -/

/-- A read over all members, whose answer is shown. -/
theorem answers_survey {α : Type} {p : Program α} {shown : α → Response}
    (hw : ¬request.IsForWorker) (hp : p.Surveys)
    (hr : (p.bind fun x => .done (shown x)).Regular []) (hs : ∀ x, (shown x).status = 200) :
    request.Answers (p.bind fun x => .done (shown x)) :=
  .surveys hw (Within.bind hp fun x _ => hs x) hr

/-- What is not about a worker has another path than what is. -/
theorem not_isForWorker_of_errand? {e : Errand} (he : request.errand? = some e)
    (hno : ∀ address action, e ≠ .worker address action) : ¬request.IsForWorker := by
  obtain ⟨m, e', hmem, -, hd⟩ := request.of_errand? he
  rintro ⟨collection, hc, path, hseg⟩
  rcases mem_routes hmem with ⟨name, hname, hseg', -⟩ | ⟨-, action, -, -, rfl⟩ |
    ⟨-, id, -, kind, action, -, -, -, -, rfl⟩
  · cases hseg.symm.trans hseg'
    revert hc hname
    simp only [List.mem_cons, List.not_mem_nil, or_false]
    rintro (rfl | rfl | rfl | rfl | rfl) <;> simp
  · obtain ⟨address', action', rfl, -⟩ := Errand.decode_worker hd
    exact hno address' action' rfl
  · obtain ⟨address', action', rfl, -⟩ := Errand.decode_worker hd
    exact hno address' action' rfl

theorem answers_perform (layout : List Socket) {e : Errand} (he : request.errand? = some e) :
    request.Answers (Gateway.perform layout request e) := by
  cases e with
  | listing =>
    exact answers_survey (not_isForWorker_of_errand? he nofun) surveys_listing
      (regular_listing _) fun _ => rfl
  | cpuUsage =>
    exact answers_survey (not_isForWorker_of_errand? he nofun) surveys_cpuUsage
      (regular_cpuUsage _) fun _ => rfl
  | cpuLayout => exact .atOnce (by simp [json])
  | cpuUnused =>
    simp only [Gateway.perform]
    split
    · rename_i q hq
      exact answers_survey (not_isForWorker_of_errand? he nofun)
        (surveys_cpuUnused layout q.master) (regular_cpuUnused layout q.master _) fun _ => rfl
    · exact .atOnce (by simp [text])
  | worker address action => exact answers_serve he

/-- The texts of a path may be malformed. -/
theorem status_of_decode {e : Errand} {x : Response} (h : e.decode = .error x) :
    x.status = 400 := by
  have hsegment : ∀ {parameter raw y}, decodeSegment parameter raw = .error y → y.status = 400 := by
    intro parameter raw y hd
    unfold decodeSegment at hd
    split at hd <;> cases hd
    rfl
  cases e with
  | worker address action =>
    simp only [Errand.decode] at h
    rcases ha : address.decode with y | address' <;> rw [ha] at h
    · cases h
      cases address with
      | primary => cases ha
      | secondary kind id =>
        simp only [Address.decode] at ha
        rcases hs : decodeSegment "sec_id" id with z | s <;> rw [hs] at ha <;> cases ha
        exact hsegment hs
    · rcases hb : action.decode with y | action' <;> rw [hb] at h <;> cases h
      cases action with
      | stopComponent name =>
        simp only [Action.decode] at hb
        rcases hs : decodeSegment "name" name with z | s <;> rw [hs] at hb <;> cases hb
        exact hsegment hs
      | order o =>
        cases o with
        | componentPort name =>
          simp only [Action.decode, Order.decode] at hb
          rcases hs : decodeSegment "name" name with z | s <;> rw [hs] at hb <;> cases hb
          exact hsegment hs
        | _ => cases hb
      | _ => cases hb
  | _ => cases h

/-- Before anything is done, the texts of the path are decoded. -/
theorem answers_attend (layout : List Socket) {e : Errand}
    (he : errandFor? request.method (routes request.target.segments) = some e) :
    request.Answers (Gateway.attend layout request e) := by
  rw [Gateway.attend]
  rcases hd : e.decode with x | e'
  · refine .atOnce ?_
    rw [status_of_decode hd]
    decide
  · refine answers_perform layout ?_
    rw [errand?, he, Option.bind_some, hd]
    rfl

/-- The body of a response may be left out. -/
theorem Speaks.map {p : Program Response} {f : Response → Response} (h : request.Speaks r p)
    (hs : ∀ x, (f x).status = x.status)
    (ha : ∀ outcomes x, IsAfter outcomes x → IsAfter outcomes (f x)) :
    request.Speaks r (p.bind fun x => .done (f x)) := by
  cases h with
  | atOnce h => exact .atOnce (by rwa [hs])
  | tells hs ha' hi h => exact .tells hs ha' hi fun outcomes => (h outcomes).bind fun x => ha _ x

theorem Answers.map {p : Program Response} {f : Response → Response} (h : request.Answers p)
    (hs : ∀ x, (f x).status = x.status)
    (ha : ∀ outcomes x, IsAfter outcomes x → IsAfter outcomes (f x)) :
    request.Answers (p.bind fun x => .done (f x)) := by
  cases h with
  | atOnce h => exact .atOnce (by rwa [hs])
  | looksUp hn hf =>
    obtain ⟨x, hx, h⟩ := hn
    exact .looksUp ⟨f x, by rw [hx]; rfl, by rwa [hs]⟩ fun r hid hp => (hf r hid hp).map hs ha
  | surveys hw hp hr =>
    refine .surveys hw (hp.bind fun x hx => ?_) (hr.map f)
    exact (hs x).trans hx

end Request

/-- Whatever a request says, it is answered in one of these ways. -/
theorem Gateway.answers_handle (layout : List Socket) (request : Request) :
    request.Answers (handle layout request) := by
  simp only [handle]
  split
  · exact .atOnce (by simp [Response.bare])
  · split
    · exact .atOnce (by decide)
    · split
      · exact .atOnce (by simp [Response.bare])
      · rename_i e he
        refine (request.answers_attend layout he).map (fun x => ?_) fun outcomes x hx => ?_
        · split <;> rfl
        · split
          · exact Response.isAfter_withoutBody hx
          · exact hx

/-! ### The ways of an answer -/

/-- A step that looks a member up and finds one that may have its id, or none. -/
def Step.IsLookUp : Step → Prop
  | .act (.find id) found => Act.Plausible (.find id) found
  | _ => False

/-- The look-ups among steps find whom there may be. -/
def Step.IsPlausible : Step → Prop
  | .act a x => a.Plausible x
  | _ => True

namespace Request

variable {request : Request} {r : Ref} {p q : Program Response} {steps : List Step}

/-- A request about a worker is at its command: a member was looked up, it is the one that the path
names, and the command is what the request asks for. -/
structure Tells (request : Request) (r : Ref) (command : Command) : Prop where
  addressee : request.addressee? = some (r.kind, r.id)
  asks : request.Asks r.kind command
  supported : command.supportedBy r.kind

/-- A command that is sent to the member that was found is the only one. -/
theorem Speaks.of_converse {commands : List (Ref × Command)}
    {next : List Outcome → Program Response} (h : request.Speaks r p)
    (hp : p.Leads steps (.wait (.converse commands) next)) :
    ∃ command, commands = [(r, command)] ∧ request.Tells r command ∧
      ∀ outcomes, (next outcomes).Within (IsClosing r) (IsTurnOn r)
        (Response.IsAfter outcomes) := by
  cases h with
  | atOnce _ => cases hp
  | @tells command _ hs ha hi hafter =>
    cases hp with
    | refl => exact ⟨command, rfl, ⟨hi, ha, hs⟩, hafter⟩
    | wait hp =>
      -- after the reply nothing is sent any more
      obtain ⟨⟨turn, hturn⟩, -⟩ := (hafter _).leads hp
      cases hturn

theorem Speaks.not_greets {link : Nat} {next : Outcome → Program Response}
    (h : request.Speaks r p) : ¬p.Leads steps (.wait (.greet link) next) := by
  intro hp
  cases h with
  | atOnce _ => cases hp
  | tells _ _ _ hafter =>
    cases hp with
    | wait hp =>
      obtain ⟨⟨turn, hturn⟩, -⟩ := (hafter _).leads hp
      cases hturn

/-- What a request is answered with, once the member was found: nothing was sent before, or the
outcome of the command is known. -/
theorem Speaks.of_done {x : Response} (h : request.Speaks r p) (hp : p.Leads steps (.done x)) :
    (steps = [] ∧ x.status ≠ 500) ∨
      ∃ command outcomes, .wait (.converse [(r, command)]) outcomes ∈ steps ∧
        x.IsAfter outcomes := by
  cases h with
  | atOnce hx =>
    obtain ⟨rfl, hq⟩ := hp.of_done
    cases hq
    exact .inl ⟨rfl, hx⟩
  | @tells command _ hs ha hi hafter =>
    right
    cases hp with
    | @wait _ _ outcomes steps _ hp =>
      exact ⟨command, outcomes, List.mem_cons_self, (hafter outcomes).leads hp⟩

/-- Commands that are sent for a request are status queries to all, or there is one, to the member
that was looked up, and none comes after it. -/
theorem Answers.of_converse {commands : List (Ref × Command)}
    {next : List Outcome → Program Response} (h : request.Answers p)
    (hp : p.Leads steps (.wait (.converse commands) next)) (hs : ∀ e ∈ steps, e.IsPlausible) :
    (¬request.IsForWorker ∧ ∀ q ∈ commands, q.2 = .status) ∨
      ∃ r command, commands = [(r, command)] ∧ .act (.find r.id) (some r) ∈ steps ∧
        request.Tells r command ∧
        ∀ outcomes, (next outcomes).Within (IsClosing r) (IsTurnOn r)
          (Response.IsAfter outcomes) := by
  cases h with
  | atOnce _ => cases hp
  | surveys hw hwithin _ => exact .inl ⟨hw, (hwithin.leads hp).1⟩
  | @looksUp id afterwards hn hspeaks =>
    right
    cases hp with
    | @act _ _ found steps _ hp =>
      have hfound : Act.Plausible (.find id) found := hs _ List.mem_cons_self
      cases found with
      | none =>
        obtain ⟨x, hx, -⟩ := hn
        rw [hx] at hp
        cases hp
      | some r =>
        obtain ⟨rfl, hproper⟩ := hfound r rfl
        obtain ⟨command, hc, htells, hafter⟩ := (hspeaks r rfl hproper).of_converse hp
        exact ⟨r, command, hc, List.mem_cons_self, htells, hafter⟩

/-- No fresh connection is asked who it is on behalf of a request. -/
theorem Answers.not_greets {link : Nat} {next : Outcome → Program Response}
    (h : request.Answers p) (hs : ∀ e ∈ steps, e.IsPlausible) :
    ¬p.Leads steps (.wait (.greet link) next) := by
  intro hp
  cases h with
  | atOnce _ => cases hp
  | surveys _ hwithin _ => exact (hwithin.leads hp).1
  | @looksUp id afterwards hn hspeaks =>
    cases hp with
    | @act _ _ found steps _ hp =>
      have hfound : Act.Plausible (.find id) found := hs _ List.mem_cons_self
      cases found with
      | none =>
        obtain ⟨x, hx, -⟩ := hn
        rw [hx] at hp
        cases hp
      | some r =>
        obtain ⟨rfl, hproper⟩ := hfound r rfl
        exact (hspeaks r rfl hproper).not_greets hp

/-- What a request is answered with: nothing but look-ups came before, or it is a read over all
members, or the outcome of the command is known. -/
theorem Answers.of_done {x : Response} (h : request.Answers p) (hp : p.Leads steps (.done x))
    (hs : ∀ e ∈ steps, e.IsPlausible) :
    ((∀ e ∈ steps, e.IsLookUp) ∧ x.status ≠ 500) ∨ x.status = 200 ∨
      ∃ commands outcomes, .wait (.converse commands) outcomes ∈ steps ∧ x.IsAfter outcomes := by
  cases h with
  | atOnce hx =>
    obtain ⟨rfl, hq⟩ := hp.of_done
    cases hq
    exact .inl ⟨nofun, hx⟩
  | surveys _ hwithin _ => exact .inr (.inl (hwithin.leads hp))
  | @looksUp id afterwards hn hspeaks =>
    cases hp with
    | @act _ _ found steps _ hp =>
      -- nobody was found and the answer is at once; or somebody was, and the look-up came first
      have hfound : Act.Plausible (.find id) found := hs _ List.mem_cons_self
      cases found with
      | none =>
        obtain ⟨y, hy, hstatus⟩ := hn
        rw [hy] at hp
        obtain ⟨rfl, hq⟩ := hp.of_done
        cases hq
        refine .inl ⟨fun e he => ?_, hstatus⟩
        rw [List.mem_singleton.1 he]
        exact hfound
      | some r =>
        obtain ⟨rfl, hproper⟩ := hfound r rfl
        rcases (hspeaks r rfl hproper).of_done hp with ⟨rfl, hstatus⟩ | ⟨command, outcomes, he, hx⟩
        · refine .inl ⟨fun e he => ?_, hstatus⟩
          rw [List.mem_singleton.1 he]
          exact hfound
        · exact .inr (.inr ⟨_, outcomes, List.mem_cons_of_mem _ he, hx⟩)

end Request

/-! ### What is done for a request is regular -/

namespace Request

variable {request : Request} {r : Ref} {p : Program Response} {refs : List Ref}

/-- Whoever only sees to the end of a member turns to nobody else. -/
theorem regular_of_within {ends : Response → Prop} (hr : r ∈ refs)
    (h : p.Within (IsClosing r) (IsTurnOn r) ends) : p.Regular refs := by
  induction p generalizing refs with
  | done x => trivial
  | act a next ih =>
    obtain ⟨ha, hn⟩ := h
    -- both acts are about that member, and neither gives it an id
    have hact : a.IsProper ∧ ∀ r' ∈ a.member?, r' = r := by
      rcases ha with rfl | rfl <;> exact ⟨trivial, fun r' hr' => (Option.some.inj hr').symm⟩
    refine ⟨hact.1, fun r' hr' => hact.2 r' hr' ▸ hr, fun x _ => ih x ?_ (hn x)⟩
    exact List.mem_append_right _ hr
  | wait w next ih =>
    obtain ⟨⟨turn, rfl⟩, hn⟩ := h
    exact ⟨fun r' hr' => List.mem_singleton.1 hr' ▸ hr, fun x => ih x hr (hn x)⟩

theorem Speaks.regular (hr : r ∈ refs) (h : request.Speaks r p) : p.Regular refs := by
  cases h with
  | atOnce _ => trivial
  | tells _ _ _ h =>
    exact ⟨fun r' hr' => List.mem_singleton.1 hr' ▸ hr,
      fun outcomes => regular_of_within hr (h outcomes)⟩

theorem Answers.regular (h : request.Answers p) : p.Regular [] := by
  cases h with
  | atOnce _ => trivial
  | looksUp hn hs =>
    refine ⟨trivial, nofun, fun found hf => ?_⟩
    rcases found with _ | r
    · obtain ⟨x, hx, -⟩ := hn
      rw [hx]
      trivial
    · obtain ⟨hid, hproper⟩ := hf r rfl
      subst hid
      exact (hs r rfl hproper).regular (List.mem_cons_self ..)
  | surveys _ _ hr => exact hr

end Request

end WorkerBroker
