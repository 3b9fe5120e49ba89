import WorkerBroker.Proofs.Answers
import WorkerBroker.Proofs.Script
/-!
# Services

Whatever is asked of the broker from outside is a `Service`: an operation, the look-up of a member,
or a request. `Service.Starts` says of a run that it starts what its calls are asked for. That such a
run keeps the broker steady (`Service.steady`) and that its calls go the ways of their programs
(`Service.path`) is all that is needed to tell what becomes of a request, whatever else goes on.
-/

namespace WorkerBroker

/-- What a service comes to. -/
inductive Upshot where
  | result (result : Result)
  /-- the member that was looked up -/
  | member (found : Except Failure Ref)
  | response (response : Response)

/-- Something that is asked of the broker from outside. -/
inductive Service where
  | operation (operation : Operation)
  /-- who the primary is -/
  | primary
  /-- who the secondary of a kind and an id is -/
  | secondary (kind : WorkerKind) (id : UInt32)
  /-- a request, to a broker on a machine with this layout -/
  | request (layout : List Socket) (request : Request)

namespace Service

/-- What is done for a service. -/
def program : Service → Program Upshot
  | operation op => op.program.bind fun x => .done (.result x)
  | primary => Program.primary.bind fun x => .done (.member x)
  | secondary kind id => (Program.secondary kind id).bind fun x => .done (.member x)
  | request layout r => (Gateway.handle layout r).bind fun x => .done (.response x)

/-- The handles that whoever asks for it must have. -/
def refs : Service → List Ref
  | operation op => op.refs
  | _ => []

/-- The connection that is handed over. -/
def brings : Service → Option Nat
  | operation op => op.brings
  | _ => none

/-- Whether a service can be started. -/
def Admits (s : Service) (b : Broker Upshot) : Prop :=
  (∀ r ∈ s.refs, b.Knows r) ∧ ∀ l ∈ s.brings, b.IsFree l

instance (s : Service) (b : Broker Upshot) : Decidable (s.Admits b) :=
  inferInstanceAs (Decidable ((∀ r ∈ s.refs, b.Knows r) ∧ ∀ l ∈ s.brings, b.IsFree l))

/-- Moves that start nothing but what the calls are asked for, each by its number. -/
def Starts (asked : Nat → Service) (b : Broker Upshot) : Move Upshot → Prop
  | .start program refs brings => (asked b.calls.length).Admits b ∧
      program = (asked b.calls.length).program ∧ refs = (asked b.calls.length).refs ∧
      brings = (asked b.calls.length).brings
  | _ => True

end Service

/-! ## All services are regular -/

/-- What an operation has to see to from the start, it may see to. -/
theorem Operation.isProper_burden {b : Broker Upshot} (hb : b.Steady) {op : Operation}
    (h : ∀ r ∈ op.refs, b.standing.Genuine r) : op.burden.IsProper := by
  cases op with
  | registerPrimary link => exact iff_of_true rfl rfl
  | replaceConnection r link => exact hb.sound.primary_iff (h r (List.mem_singleton_self r))
  | _ => trivial

theorem Program.regular_primary : Program.primary.Regular [] := by
  refine ⟨trivial, nofun, fun found _ => ?_⟩
  cases found <;> trivial

theorem Program.regular_secondary (kind : WorkerKind) (id : UInt32) :
    (Program.secondary kind id).Regular [] := by
  refine ⟨trivial, nofun, fun found _ => ?_⟩
  rcases found with _ | r
  · trivial
  · change Program.Regular _ (if _ then _ else _)
    split <;> trivial

namespace Service

open Broker

variable {asked : Nat → Service} {timeout c : Nat} {past : List (Deed Upshot)}
  {b b' : Broker Upshot} {m : Move Upshot}

theorem regular_program (hb : b.Steady) {s : Service} (h : s.Admits b) :
    s.program.Regular s.refs := by
  cases s with
  | operation op =>
    have hrefs : ∀ r ∈ op.refs, b.standing.Genuine r := fun r hr => hb.genuine_of_knows (h.1 r hr)
    exact (op.obeys.regular (op.isProper_burden hb hrefs)).map _
  | primary => exact Program.regular_primary.map _
  | secondary kind id => exact (Program.regular_secondary kind id).map _
  | request layout r => exact (Gateway.answers_handle layout r).regular.map _

theorem startsRegular (hb : b.Steady) (h : Starts asked b m) : b.StartsRegular m := by
  cases m with
  | start program refs brings =>
    obtain ⟨ha, rfl, rfl, -⟩ := h
    exact ⟨regular_program hb ha, fun r hr => hb.genuine_of_knows (ha.1 r hr)⟩
  | _ => trivial

/-! ## Runs -/

/-- Services keep the broker steady. -/
theorem steady (hr : Run (fun _ => Starts asked) (fresh timeout) past b) :
    b.Steady ∧ ∀ d ∈ past, d.before.Steady :=
  hr.steady fun _ _ => startsRegular

/-- A call goes the ways of the program that it was asked for. -/
theorem path (hr : Run (fun _ => Starts asked) (fresh timeout) past b) {q : Program Upshot}
    (hq : b.left? c = some q) : HasCome past c (asked c).program b :=
  hr.hasCome (f := fun c => (asked c).program) (fun _ _ _ _ h => h.2.1) hq

/-- What was answered to the calls on their way is what there may be. -/
theorem isPlausible_of_made {e : Step} (h : ∀ d ∈ past, d.before.Steady) (he : e.Made past c) :
    e.IsPlausible := by
  cases e with
  | act a x =>
    obtain ⟨d, hd, -, -, rfl⟩ := he
    exact plausible_act (h d hd).sound a
  | wait w x => trivial

end Service

/-! ## Requests -/

/-- A member that turns to a command is the member of the command. -/
theorem Broker.QueuesOk.of_queued? {ω : Type} {b : Broker ω} (h : b.QueuesOk) {n : Nat}
    {t : Ticket} {command : Command} (hn : t ∈ b.queue n) (hq : b.queued? t = some command) :
    ∃ r commands next, r.number = n ∧ commands[t.leg]? = some (r, command) ∧
      b.left? t.call = some (.wait (.converse commands) next) := by
  obtain ⟨p, hp, hw⟩ := (h.mem_iff n t).1 hn
  rw [queued?, hp] at hq
  split at hq
  · rename_i legs next hconv
    obtain rfl := Option.some.inj hconv
    obtain ⟨l, hl, hnum, -⟩ := hw
    rw [hl] at hq
    split at hq
    · rename_i r c hleg
      obtain rfl := Option.some.inj hleg
      cases hq
      refine ⟨r, legs.map fun l : Leg => (l.member, l.command), next, hnum, ?_,
        left?_of_phase hp⟩
      rw [List.getElem?_map, hl]
      rfl
    · cases hq
  · cases hq

namespace Service

open Broker

variable {asked : Nat → Service} {timeout c : Nat} {past : List (Deed Upshot)}
  {b : Broker Upshot} {layout : List Socket} {request : Request}

/-- What is left of a request is what its program has come to. -/
theorem path_of_request (hr : Run (fun _ => Starts asked) (fresh timeout) past b)
    (hc : asked c = .request layout request) {q : Program Upshot} (hq : b.left? c = some q) :
    ∃ steps p, (Gateway.handle layout request).Leads steps p ∧
      q = p.bind (fun x => .done (.response x)) ∧ (∀ e ∈ steps, e.IsPlausible) ∧
      ∀ e ∈ steps, e.Made past c := by
  obtain ⟨steps, q', hq', hpath, hmade⟩ := path hr hq
  obtain rfl := Option.some.inj (hq.symm.trans hq')
  rw [hc] at hpath
  obtain ⟨p, hp, hqp⟩ := hpath.of_map
  exact ⟨steps, p, hp, hqp, fun e he => isPlausible_of_made (steady hr).2 (hmade e he), hmade⟩

/-- When commands have been sent for a request, they are status queries to all, or there is one, to
the member that the path names, which was registered when it was looked up. -/
theorem converses (hr : Run (fun _ => Starts asked) (fresh timeout) past b)
    (hc : asked c = .request layout request) {commands : List (Ref × Command)}
    {next : List Outcome → Program Upshot}
    (hq : b.left? c = some (.wait (.converse commands) next)) :
    (¬request.IsForWorker ∧ ∀ q ∈ commands, q.2 = .status) ∨
      ∃ r command, commands = [(r, command)] ∧ request.Tells r command ∧
        (∃ d ∈ past, d.move = .run c ∧ Table.find? r.id d.before.registry = some r) ∧
        ∀ outcomes, (next outcomes).Within (Request.IsClosing r) (Request.IsTurnOn r)
          fun _ => True := by
  obtain ⟨steps, p, hp, hqp, hplausible, hmade⟩ := path_of_request hr hc hq
  cases p with
  | done x => cases hqp
  | act a next' => cases hqp
  | wait w next' =>
    cases hqp
    rcases (Gateway.answers_handle layout request).of_converse hp hplausible with
      hall | ⟨r, command, rfl, hfind, htells, hafter⟩
    · exact .inl hall
    · obtain ⟨d, hd, hmove, -, hx⟩ := hmade _ hfind
      refine .inr ⟨r, command, rfl, htells, ⟨d, hd, hmove, hx⟩, fun outcomes => ?_⟩
      exact (hafter outcomes).bind fun _ _ => trivial

/-- A line that is written for a request is that of one of its commands, and goes to the current
connection of the member that the command is for. -/
theorem of_wrote (hr : Run (fun _ => Starts asked) (fresh timeout) past b) {d : Deed Upshot}
    (hd : d ∈ past) {t : Ticket} {l : Nat} {line : String}
    (hw : d.event? = some (.wrote t l line)) (hc : asked t.call = .request layout request) :
    ∃ r command commands next, d.move = .serve r.number ∧
      (d.before.member r.number).channel =
        some ⟨l, (d.before.member r.number).generation⟩ ∧
      line = command.line ∧ d.before.queued? t = some command ∧
      commands[t.leg]? = some (r, command) ∧
      d.before.left? t.call = some (.wait (.converse commands) next) := by
  obtain ⟨past₁, past₂, rfl, hr₁, -⟩ := hr.cut hd
  -- what is not a command asks a fresh connection who it is, and no request does that
  rcases Deed.of_wrote hw with ⟨next, hphase⟩ | ⟨n, rest, command, hm, hn, hq, hline, hch⟩
  · obtain ⟨steps, p, hp, hqp, hplausible, -⟩ := path_of_request hr₁ hc (left?_of_phase hphase)
    cases p with
    | done x => cases hqp
    | act a next' => cases hqp
    | wait w next' =>
      cases hqp
      exact absurd hp ((Gateway.answers_handle layout request).not_greets hplausible)
  · have hmem : t ∈ d.before.queue n := by
      rw [queue, hn]
      exact List.mem_cons_self
    obtain ⟨r, commands, next, rfl, hcommand, hleft⟩ :=
      (steady hr₁).1.order.toQueuesOk.of_queued? hmem hq
    exact ⟨r, command, commands, next, hm, hch, hline, hq, hcommand, hleft⟩

end Service

/-! ## Runs that are written down -/

namespace Service

open Broker

variable {asked : Nat → Service}

/-- The move that a line of a script stands for: one that starts no call, or the start of the next
call if it can be started. -/
def cue (asked : Nat → Service) (b : Broker Upshot) : Option (Move Upshot) → Option (Move Upshot)
  | some (.start _ _ _) => none
  | some m => some m
  | none =>
    if (asked b.calls.length).Admits b then
      some (.start (asked b.calls.length).program (asked b.calls.length).refs
        (asked b.calls.length).brings)
    else none

theorem starts_of_cue {b : Broker Upshot} {line : Option (Move Upshot)} {m : Move Upshot}
    (h : cue asked b line = some m) : Starts asked b m := by
  rw [cue.eq_def] at h
  split at h
  · cases h
  · rename_i m' hm
    cases h
    cases m with
    | start program refs brings => exact absurd rfl (hm program refs brings)
    | _ => trivial
  · split at h
    · cases h
      exact ⟨‹_›, rfl, rfl, rfl⟩
    · cases h

/-- Act out a script after what has happened. -/
def enact (asked : Nat → Service) : List (Option (Move Upshot)) → List (Deed Upshot) →
    Broker Upshot → Option (List (Deed Upshot) × Broker Upshot)
  | [], past, b => some (past, b)
  | line :: script, past, b => do
    let m ← cue asked b line
    let c ← b.step m
    enact asked script (past ++ [⟨b, m⟩]) c

/-- What can be acted out is a run. -/
theorem run_of_enact {script : List (Option (Move Upshot))} {past past' : List (Deed Upshot)}
    {a b b' : Broker Upshot} (hr : Run (fun _ => Starts asked) a past b)
    (h : enact asked script past b = some (past', b')) :
    Run (fun _ => Starts asked) a past' b' := by
  induction script generalizing past b with
  | nil =>
    cases h
    exact hr
  | cons line script ih =>
    simp only [enact, Option.bind_eq_bind, Option.bind_eq_some_iff] at h
    obtain ⟨m, hm, c, hc, h⟩ := h
    exact ih (.snoc m hr (starts_of_cue hm) hc) h

/-- To have a run, act out a script. -/
theorem exists_run_of_enact (asked : Nat → Service) (script : List (Option (Move Upshot)))
    {timeout : Nat} {P : List (Deed Upshot) → Broker Upshot → Prop}
    [∀ past b, Decidable (P past b)]
    (h : (enact asked script [] (fresh timeout)).any (fun s => P s.1 s.2)) :
    ∃ past b, Run (fun _ => Starts asked) (fresh timeout) past b ∧ P past b := by
  obtain ⟨⟨past, b⟩, hs, hp⟩ := (Option.any_eq_true _ _).1 h
  exact ⟨past, b, run_of_enact .nil hs, by simpa using hp⟩

/-- To have a run after another one, act out its script. -/
theorem exists_run_after {asked : Nat → Service} {script : List (Option (Move Upshot))}
    {a : Broker Upshot} {P : List (Deed Upshot) × Broker Upshot → Bool}
    (h : (enact asked script [] a).any P) :
    ∃ under b, Run (fun _ => Starts asked) a under b ∧ P (under, b) := by
  obtain ⟨⟨under, b⟩, hs, hp⟩ := (Option.any_eq_true _ _).1 h
  exact ⟨under, b, run_of_enact .nil hs, hp⟩

/-- What a request has been answered with. -/
def response? (c : Nat) (b : Broker Upshot) : Option Response :=
  match b.calls[c]?.bind Call.result? with
  | some (.response x) => some x
  | _ => none

theorem phase?_of_response? {b : Broker Upshot} {c : Nat} {x : Response}
    (h : response? c b = some x) : b.phase? c = some (.finished (.response x)) := by
  rw [response?] at h
  split at h
  · rename_i y hy
    cases h
    obtain ⟨call, hc, hx⟩ := Option.bind_eq_some_iff.1 hy
    rw [phase?, hc, Option.map_some]
    rw [Call.result?] at hx
    split at hx
    · rename_i z hz
      cases hx
      rw [hz]
    · cases hx
  · cases h

/-- What an operation has come to, if it is over. -/
def result? (c : Nat) (b : Broker Upshot) : Option Result :=
  match b.calls[c]?.bind Call.result? with
  | some (.result x) => some x
  | _ => none

theorem phase?_of_result? {b : Broker Upshot} {c : Nat} {x : Result} (h : result? c b = some x) :
    b.phase? c = some (.finished (.result x)) := by
  rw [result?] at h
  split at h
  · rename_i y hy
    cases h
    obtain ⟨call, hc, hx⟩ := Option.bind_eq_some_iff.1 hy
    rw [Call.result?] at hx
    split at hx
    · rename_i z hz
      cases hx
      rw [phase?, hc, Option.map_some, hz]
    · cases hx
  · cases h

theorem result?_of_phase {b : Broker Upshot} {c : Nat} {x : Result}
    (h : b.phase? c = some (.finished (.result x))) : result? c b = some x := by
  obtain ⟨call, hcall, hx⟩ := exists_call_of_phase h
  simp [result?, hcall, Call.result?, hx]

/-- What an operation comes to is a result. -/
theorem exists_result {timeout c : Nat} {past : List (Deed Upshot)} {b : Broker Upshot}
    {op : Operation} {y : Upshot} (hr : Run (fun _ => Starts asked) (fresh timeout) past b)
    (hc : asked c = .operation op) (hend : b.phase? c = some (.finished y)) :
    ∃ x, y = .result x ∧ result? c b = some x := by
  obtain ⟨steps, q, hq, hpath, -⟩ := path hr (left?_of_phase hend)
  cases hq.symm.trans (left?_of_phase hend)
  rw [hc] at hpath
  obtain ⟨x, -, rfl⟩ := hpath.of_map_done
  exact ⟨x, rfl, result?_of_phase hend⟩

/-- A worker of kind `nfv` and id 1 connects for the first time. -/
def nfvArrives : List (Option (Move Upshot)) :=
  [some .accept, none, some (.run 0), some (.signal 0 (.bytes nfvAnswer)), some (.hear 0),
    some (.run 0), some (.run 0), some (.run 0)]

/-- It connects, and is told something by the next call. -/
def nfvTold : List (Option (Move Upshot)) :=
  nfvArrives ++
    ([none, some (.run 1), some (.run 1), some (.serve 0)] : List (Option (Move Upshot)))

end Service

end WorkerBroker
