import WorkerBroker.Proofs.Accounting
import WorkerBroker.Proofs.Endings
/-!
# Reads over all members

The listing and the account of the lcores are made in the same way: the read looks who is registered,
sends each of those whom it asks a status query (`Broker.polled`), unregisters the secondaries that
have not answered, and reports. `Polling` says how far a call is with that, and is kept by each of
its moves. A read looks once only whom it asks (`Service.eq_of_opens`), so when it has the answers,
they are those of the members that it saw then (`HasPolled`).

The lines that a read has written to a member are those of its query (`Service.linesTo_of_polled`),
and nothing is written to anybody else. A member replies to a read if anything was read for its query
(`Ref.Replies`), whatever that is; the query of one that does not reply has come to nothing
(`HasPolled.silent`), and a secondary with such a query is dead (`Program.isDead_judge`).
-/

namespace WorkerBroker

/-! ## The programs of the reads -/

namespace Operation

/-- The listing and the account of the lcores are reads over all members. -/
def IsRead (op : Operation) : Prop := op = .listing ∨ op = .cpuUsage

/-- Whether a read asks a member: the listing asks secondaries only. -/
def asks : Operation → Ref → Bool
  | .listing, r => r.kind.isSecondary
  | _, _ => true

/-- What a read comes to when it has gone through the answers. -/
def report : Operation → List Probe → Program Result
  | .listing, _ => .act .roster fun now => .done (.entries (now.map Entry.ofRef))
  | _, ps => .done (.usages (ps.filterMap Program.claimOf))

/-- What is left of a read that has the outcomes of its queries. -/
def afterPoll (op : Operation) (refs : List Ref) (outcomes : List Outcome) : Program Upshot :=
  (Program.prune (Program.probes refs outcomes)).bind fun ps =>
    (op.report ps).bind fun x => .done (.result x)

/-- What is left of a read that knows whom to ask. -/
def poll (op : Operation) (refs : List Ref) : Program Upshot :=
  .wait (.converse (refs.map fun r => (r, .status))) (op.afterPoll refs)

end Operation

/-- Whom a read asks, of those who are registered. -/
def Broker.polled {ω : Type} (op : Operation) (b : Broker ω) : List Ref := b.everyone.filter op.asks

/-- A read looks who is registered, and asks them. -/
theorem Service.program_of_isRead {op : Operation} (h : op.IsRead) :
    (Service.operation op).program = .act .roster fun refs => op.poll (refs.filter op.asks) := by
  obtain rfl | rfl := h
  · refine congrArg (Program.act .roster) (funext fun refs : List Ref => ?_)
    refine congrArg (Program.wait (.converse _)) (funext fun outcomes : List Outcome => ?_)
    change Program.bind (Program.bind (Program.bind _ _) _) _ = _
    rw [Program.bind_assoc, Program.bind_assoc]
    rfl
  · refine congrArg (Program.act .roster) (funext fun refs : List Ref => ?_)
    have hall : refs.filter Operation.cpuUsage.asks = refs := List.filter_eq_self.2 fun _ _ => rfl
    rw [hall]
    refine congrArg (Program.wait (.converse _)) (funext fun outcomes : List Outcome => ?_)
    change Program.bind (Program.bind (Program.bind _ _) _) _ = _
    rw [Program.bind_assoc, Program.bind_assoc]
    rfl

namespace Program

variable {op : Operation} {refs : List Ref} {outcomes : List Outcome} {ps qs : List Probe}
  {steps : List Step} {r : Ref} {o : Outcome}

/-! ### Who is dead -/

/-- A secondary is dead if its query came to nothing; any answer at all will do. -/
theorem isDead_judge :
    Probe.isDead (r, judge r .status o) ↔ r.kind.isSecondary ∧ ∃ s, o = .error s := by
  rcases o with s | raw
  · simp [Probe.isDead, judge, Failure.isTransport]
  · rw [judge]
    rcases hd : decodeReply raw with e | value
    · obtain ⟨detail, reply, rfl⟩ := rejected_of_decodeReply hd
      simp [Probe.isDead, Failure.isTransport]
    · simp [Probe.isDead]

theorem isDead_of_mem_probes {p : Probe} (hp : p ∈ probes refs outcomes) (hdead : Probe.isDead p) :
    p.1.kind.isSecondary ∧
      ∃ (i : Nat) (s : Silence), refs[i]? = some p.1 ∧ outcomes[i]? = some (.error s) := by
  obtain ⟨i, hi⟩ := List.getElem?_of_mem hp
  obtain ⟨q, o, hq, ho, rfl⟩ := getElem?_probes hi
  obtain ⟨hk, s, rfl⟩ := isDead_judge.1 hdead
  exact ⟨hk, i, s, hq, ho⟩

theorem mem_probes_of_error {i : Nat} {s : Silence} (hr : refs[i]? = some r)
    (ho : outcomes[i]? = some (.error s)) (hk : r.kind.isSecondary) :
    (r, judge r .status (.error s)) ∈ probes refs outcomes ∧
      Probe.isDead (r, judge r .status (.error s)) := by
  refine ⟨?_, isDead_judge.2 ⟨hk, s, rfl⟩⟩
  have hz : (refs.zip outcomes)[i]? = some (r, .error s) := List.getElem?_zip_eq_some.2 ⟨hr, ho⟩
  exact List.mem_map.2 ⟨_, List.mem_of_getElem? hz, rfl⟩

/-! ### What is done about the dead -/

/-- An act of a read that has the answers: it strikes off a dead member, or looks who is left. -/
def IsPruning (ps : List Probe) (a : Act) : Prop :=
  a = .roster ∨ ∃ p ∈ ps, Probe.isDead p ∧ a = .strike p.1

/-- A turn of a read that has the answers: it retires a dead member. -/
def IsRetiring (ps : List Probe) (w : Wait) : Prop :=
  ∃ p ∈ ps, Probe.isDead p ∧ w = .enter p.1 .retire

theorem within_unregisterDead_of_mem {p : Probe} (hp : p ∈ ps) (hdead : Probe.isDead p) :
    (unregisterDead p.1).Within (IsPruning ps) (IsRetiring ps) fun _ => True := by
  refine ⟨⟨p, hp, hdead, rfl⟩, fun x => ?_⟩
  cases x with
  | true => exact ⟨.inr ⟨p, hp, hdead, rfl⟩, fun _ => trivial⟩
  | false => trivial

theorem within_prune_of_subset {all : List Probe} (h : ps ⊆ all) :
    (prune ps).Within (IsPruning all) (IsRetiring all) fun _ => True := by
  induction ps with
  | nil => trivial
  | cons p ps ih =>
    obtain ⟨hp, hps⟩ := List.cons_subset.1 h
    have hrest : ((prune ps).bind fun qs => done (p :: qs)).Within (IsPruning all) (IsRetiring all)
        fun _ => True := (ih hps).bind fun _ _ => trivial
    rw [prune]
    split
    · rename_i hdead
      refine (within_unregisterDead_of_mem hp hdead).bind fun x _ => ?_
      cases x with
      | true => exact ih hps
      | false => exact hrest
    · exact hrest

theorem within_report (ps qs : List Probe) :
    ((op.report qs).bind fun x => done (.result x) : Program Upshot).Within (IsPruning ps)
      (IsRetiring ps) fun _ => True := by
  cases op with
  | listing => exact ⟨.inl rfl, fun _ => trivial⟩
  | _ => trivial

/-- With the answers nothing is done but to strike off the dead, and to look who is left. -/
theorem within_afterPoll (op : Operation) (refs : List Ref) (outcomes : List Outcome) :
    (op.afterPoll refs outcomes).Within (IsPruning (probes refs outcomes))
      (IsRetiring (probes refs outcomes)) fun _ => True :=
  (within_prune_of_subset (List.Subset.refl _)).bind fun qs _ => within_report _ qs

/-- A dead member gets its turn, and is struck off if it was retired then. -/
theorem mem_of_prune {p : Probe} (hl : (prune ps).Leads steps (done qs)) (hp : p ∈ ps)
    (hdead : Probe.isDead p) :
    ∃ y : Bool, .wait (.enter p.1 .retire) y ∈ steps ∧
      (y = true → ∃ z, .act (.strike p.1) z ∈ steps) := by
  induction ps generalizing steps qs with
  | nil => cases hp
  | cons q ps ih =>
    have hrest : ∀ {t : List Step}, ((prune ps).bind fun qs => done (q :: qs)).Leads t (done qs) →
        ∃ t' qs', (prune ps).Leads t' (done qs') ∧ t' ⊆ t := by
      intro t hl
      obtain ⟨t₁, qs', t₂, rfl, h₁, -⟩ := hl.of_bind
      exact ⟨t₁, qs', h₁, List.subset_append_left ..⟩
    -- who comes later in the list is seen to in the rest of the steps
    have hlater : ∀ {t : List Step} {qs' : List Probe}, p ∈ ps → (prune ps).Leads t (done qs') →
        t ⊆ steps → ∃ y : Bool, .wait (.enter p.1 .retire) y ∈ steps ∧
          (y = true → ∃ z, .act (.strike p.1) z ∈ steps) := by
      intro t qs' hp hl hsub
      obtain ⟨y, hy, hz⟩ := ih hl hp
      exact ⟨y, hsub hy, fun h => (hz h).imp fun _ hz => hsub hz⟩
    simp only [prune] at hl
    split at hl
    · obtain ⟨s₁, y, s₂, rfl, h₁, h₂⟩ := hl.of_bind
      rcases List.mem_cons.1 hp with rfl | hp
      · cases h₁ with
        | @wait _ _ y _ _ h₁ =>
          refine ⟨y, List.mem_cons_self, ?_⟩
          rintro rfl
          cases h₁ with
          | @act _ _ z _ _ h₁ => exact ⟨z, List.mem_cons_of_mem _ List.mem_cons_self⟩
      · cases y with
        | true => exact hlater hp h₂ (List.subset_append_right ..)
        | false =>
          obtain ⟨t', qs', ht, hsub⟩ := hrest h₂
          exact hlater hp ht (List.Subset.trans hsub (List.subset_append_right ..))
    · rename_i halive
      rcases List.mem_cons.1 hp with rfl | hp
      · exact absurd hdead halive
      · obtain ⟨t', qs', ht, hsub⟩ := hrest hl
        exact hlater hp ht hsub

/-- Whoever is struck off has been retired before, if nobody is struck off later. -/
theorem mem_of_strike {k : List Probe → Program Upshot}
    {next : Act.Answer (.strike r) → Program Upshot}
    (hk : ∀ qs, (k qs).Within (IsPruning []) (IsRetiring []) fun _ => True)
    (hl : ((prune ps).bind k).Leads steps (.act (.strike r) next)) :
    .wait (.enter r .retire) true ∈ steps := by
  induction ps generalizing steps k with
  | nil =>
    obtain h | ⟨p, hp, -⟩ := ((hk []).leads hl).1
    · cases h
    · cases hp
  | cons p ps ih =>
    have hrest : ∀ {t : List Step},
        (((prune ps).bind fun qs => done (p :: qs)).bind k).Leads t (.act (.strike r) next) →
          .wait (.enter r .retire) true ∈ t := fun hl => by
      rw [bind_assoc] at hl
      exact ih (fun qs => hk (p :: qs)) hl
    simp only [prune] at hl
    split at hl
    · rw [bind_def, bind_assoc] at hl
      cases hl with
      | @wait _ _ y s _ hl =>
        cases y with
        | true =>
          cases hl with
          | refl => exact List.mem_cons_self
          | act hl => exact List.mem_cons_of_mem _ (List.mem_cons_of_mem _ (ih hk hl))
        | false => exact List.mem_cons_of_mem _ (hrest hl)
    · exact hrest hl

theorem mute_afterPoll (op : Operation) (refs : List Ref) (outcomes : List Outcome) :
    (op.afterPoll refs outcomes).Mute := by
  refine (mute_prune _).bind fun qs => ?_
  cases op with
  | listing => exact ⟨rfl, fun _ => trivial⟩
  | _ => trivial

theorem asksOnce_poll (op : Operation) (refs : List Ref) : (op.poll refs).AsksOnce :=
  mute_afterPoll op refs

end Program

/-! ## How far a read is -/

/-- In this move a call makes the first step of an operation. -/
def Deed.Opens (d : Deed Upshot) (op : Operation) (c : Nat) : Prop :=
  d.move = .run c ∧ d.before.phase? c = some (.running (Service.operation op).program)

/-- How far a call is with a read: it has not looked who is registered, or it has, and is on its way
through its conversation with them. -/
inductive Polling (op : Operation) (c : Nat) (past : List (Deed Upshot)) :
    Phase Upshot → Prop where
  | looks (hno : ∀ i, eventsOf ⟨c, i⟩ (log past) = []) :
      Polling op c past (.running (Service.operation op).program)
  | asks {p : Phase Upshot} {d : Deed Upshot} (hd : d ∈ past) (ho : d.Opens op c)
      (h : Conversation (op.poll (d.before.polled op)) c past p) : Polling op c past p
  | gone : Polling op c past .abandoned

namespace Polling

open Broker Program

variable {op : Operation} {c : Nat} {past : List (Deed Upshot)} {p : Phase Upshot}
  {b b' : Broker Upshot} {m : Move Upshot}

theorem other (h : Polling op c past p) (hc : b.mover? m ≠ some c) :
    Polling op c (past ++ [⟨b, m⟩]) p := by
  cases h with
  | looks hno => exact .looks fun i => (eventsOf_of_not_mover hc).trans (hno i)
  | asks hd ho h => exact .asks (List.mem_append_left _ hd) ho (h.other hc)
  | gone => exact .gone

theorem step (hop : op.IsRead) (h : Polling op c past p) (ho : b.InOrder) (hr : AllRead past b)
    (hp : b.phase? c = some p) (hc : b.mover? m = some c) (hm : b.step m = some b') :
    ∃ p', b'.phase? c = some p' ∧ Polling op c (past ++ [⟨b, m⟩]) p' := by
  cases h with
  | looks hno =>
    have hphase := hp
    rw [Service.program_of_isRead hop] at hp
    obtain ⟨p', refs, hp', had⟩ := advance_of_mover hm hp hc
    refine ⟨p', hp', ?_⟩
    cases had with
    | leaves => exact .gone
    | acts =>
      refine .asks (List.mem_append_right _ (List.mem_singleton_self _)) ⟨rfl, hphase⟩ ?_
      refine .start fun i => ?_
      rw [eventsOf_snoc, hno, event?_of_isSilent hp hc trivial]
      rfl
  | asks hd hopen h =>
    obtain ⟨p', hp', h'⟩ := h.step (asksOnce_poll op _) ho hr hp hc hm
    exact ⟨p', hp', .asks (List.mem_append_left _ hd) hopen h'⟩
  | gone => exact ⟨_, abandoned_step hm hp, .gone⟩

end Polling

namespace Service

open Broker Program

variable {asked : Nat → Service} {timeout c : Nat} {past under : List (Deed Upshot)}
  {a b : Broker Upshot} {op : Operation}

/-- In a run of services, a call for a read has not been started, or it is on its way. -/
theorem polling (hr : Run (fun _ => Starts asked) (fresh timeout) past b) (hop : op.IsRead)
    (hc : asked c = .operation op) :
    b.phase? c = none ∧ (∀ i, eventsOf ⟨c, i⟩ (log past) = []) ∨
      ∃ p, b.phase? c = some p ∧ Polling op c past p := by
  induction hr with
  | nil => exact .inl ⟨rfl, fun _ => rfl⟩
  | @snoc past b b' m hr hs hm ih =>
    by_cases hmover : b.mover? m = some c
    · rcases ih with ⟨hp, hno⟩ | ⟨p, hp, h⟩
      · -- a call that there is not makes a move only by being started
        obtain ⟨program, refs, brings, rfl⟩ := start_of_mover hm hp hmover
        cases hmover
        cases hm
        obtain ⟨-, rfl, -⟩ := hs
        rw [hc]
        refine .inr ⟨_, ?_, .looks fun i => ?_⟩
        · rw [phase?, List.getElem?_concat_length]
          rfl
        · rw [eventsOf_snoc, hno]
          rfl
      · exact .inr (h.step hop (steady hr).1.order hr.allRead hp hmover hm)
    · rw [phase?_step hm hmover]
      rcases ih with ⟨hp, hno⟩ | ⟨p, hp, h⟩
      · exact .inl ⟨hp, fun i => (eventsOf_of_not_mover hmover).trans (hno i)⟩
      · exact .inr ⟨p, hp, h.other hmover⟩

end Service

/-! ## What is known of a read that has the answers -/

/-- A read has asked these members: each query is over and has an outcome, nothing can be seen of
others, and the read has gone on from the outcomes to what is left of it. -/
structure HasPolled (op : Operation) (c : Nat) (past : List (Deed Upshot)) (refs : List Ref)
    (outcomes : List Outcome) (q : Program Upshot) : Prop where
  asked : ∀ (i : Nat) r, refs[i]? = some r → ∃ o, outcomes[i]? = some o ∧
    Exchanged past ⟨c, i⟩ r.number .status (eventsOf ⟨c, i⟩ (log past)) (.ended o)
  others : ∀ i, refs.length ≤ i → eventsOf ⟨c, i⟩ (log past) = []
  path : ∃ steps, (op.afterPoll refs outcomes).Leads steps q ∧ ∀ e ∈ steps, e.Made past c

section

open Program

variable {op : Operation} {c : Nat} {past : List (Deed Upshot)} {p : Phase Upshot}
  {q : Program Upshot}

/-- Commands that are still on their way lead nowhere. -/
theorem Program.Leads.of_isMute {commands : List (Ref × Command)}
    {next : List Outcome → Program Upshot} {steps : List Step}
    (hl : (Program.wait (.converse commands) next).Leads steps q) (hs : ∀ e ∈ steps, e.IsMute) :
    q = .wait (.converse commands) next := by
  cases hl with
  | refl => rfl
  | @wait w _ outcomes => exact (hs (.wait _ outcomes) List.mem_cons_self).elim

/-- A read that has been started has not looked who is registered, or it is asking those whom it
has seen, or has asked them. -/
theorem Polling.of_left (h : Polling op c past p) (hq : p.left? = some q) :
    q = (Service.operation op).program ∨
      ∃ d ∈ past, d.Opens op c ∧ (q = op.poll (d.before.polled op) ∨
        ∃ outcomes, HasPolled op c past (d.before.polled op) outcomes q) := by
  cases h with
  | looks hno =>
    cases hq
    exact .inl rfl
  | @asks _ d hd ho h =>
    refine .inr ⟨d, hd, ho, ?_⟩
    cases h with
    | before hpath hsteps hp _ _ =>
      cases hp.symm.trans hq
      exact .inl (hpath.of_isMute fun e he => (hsteps e he).1)
    | going hpath hsteps _ _ =>
      cases hq
      exact .inl (hpath.of_isMute fun e he => (hsteps e he).1)
    | @answered _ _ commands next outcomes steps rest hpath hsteps h hno hrest hmade hp =>
      cases hp.symm.trans hq
      cases hpath.of_isMute fun e he => (hsteps e he).1
      refine .inr ⟨outcomes, ⟨fun i r hr => ?_, fun i hi => ?_, rest, hrest,
        fun e he => (hmade e he).2⟩⟩
      · exact h i r .status (by rw [List.getElem?_map, hr]; rfl)
      · exact hno i (by rwa [List.length_map])
    | gone => cases hq
  | gone => cases hq

end

namespace Broker

variable {ω : Type} {a b b' : Broker ω} {m : Move ω} {c : Nat} {past under : List (Deed ω)}
  {d : Deed ω} {allowed : Broker ω → Move ω → Prop} {timeout : Nat} {r : Ref}

/-! ## Moves of one call -/

/-- A call that there is not has made no move. -/
theorem not_mover_of_new (hr : Run (fun _ => allowed) a past b) (hb : b.phase? c = none)
    (hd : d ∈ past) : d.before.mover? d.move ≠ some c := by
  intro hc
  obtain ⟨past₁, past₂, -, -, hrest⟩ := hr.cut hd
  obtain ⟨-, b', hm, hrest⟩ := hrest.of_cons
  have hlt : c < b'.calls.length := by
    rcases hp : d.before.phase? c with _ | p
    · obtain ⟨program, refs, brings, hstart⟩ := start_of_mover hm hp hc
      rw [hstart] at hc hm
      cases hc
      cases hm
      simp
    · obtain ⟨call, hcall, -⟩ := exists_call_of_phase hp
      exact Nat.lt_of_lt_of_le (List.getElem?_eq_some_iff.1 hcall).1 (calls_length_step hm)
  have hge : b.calls.length ≤ c := by simpa [phase?] using hb
  exact Nat.lt_irrefl c (Nat.lt_of_lt_of_le hlt (Nat.le_trans hrest.calls_length hge))

/-- Nothing more can be seen of a call that only takes turns from now on. -/
theorem Run.eventsOf_of_mute {p : Program ω} (ha : Run (fun _ => allowed) (fresh timeout) past a)
    (hr : Run (fun _ => allowed) a under b) (hl : a.left? c = some p) (hp : p.Mute) (i : Nat) :
    eventsOf ⟨c, i⟩ (log (past ++ under)) = eventsOf ⟨c, i⟩ (log past) := by
  induction hr with
  | nil => rw [List.append_nil]
  | @snoc under b b' m hr hm hstep ih =>
    rw [← List.append_assoc]
    by_cases hc : b.mover? m = some c
    · obtain ⟨q, hq, hsilent⟩ : ∃ q, b.phase? c = some q ∧ q.IsSilent := by
        rcases ha.leads hr hl with hgone | ⟨steps, q, hleft, hpath, -⟩
        · exact ⟨_, hgone, trivial⟩
        · obtain ⟨q', hq', hleft⟩ := Option.bind_eq_some_iff.1 hleft
          have hmute : q.Mute := Program.Within.leads hp hpath
          refine ⟨q', hq', isSilent_of_asksOnce hleft hmute.asksOnce ?_⟩
          rintro legs next rfl
          cases hleft
          exact hmute.1
      rw [eventsOf_snoc, event?_of_isSilent hq hc hsilent, ih]
      exact List.append_nil _
    · exact (eventsOf_of_not_mover hc).trans ih

/-! ## Who is registered -/

theorem mem_everyone (hb : b.Steady) : r ∈ b.everyone ↔ Table.find? r.id b.registry = some r := by
  constructor
  · intro hr
    obtain ⟨e, he, rfl⟩ := List.mem_map.1 hr
    rw [(hb.sound.keyed_of_mem he).1]
    exact hb.sound.ascending.find?_eq_some he
  · exact fun hr => List.mem_map.2 ⟨_, Table.mem_of_find? hr, rfl⟩

theorem everyone_ascending (hb : b.Steady) : b.everyone.Pairwise (·.id < ·.id) := by
  refine List.pairwise_map.2 (hb.sound.ascending.imp_of_mem fun {e e'} he he' hlt => ?_)
  rwa [(hb.sound.keyed_of_mem he).1, (hb.sound.keyed_of_mem he').1]

theorem genuine_of_mem_everyone (hb : b.Steady) (hr : r ∈ b.everyone) : b.standing.Genuine r := by
  obtain ⟨e, he, rfl⟩ := List.mem_map.1 hr
  exact (hb.sound.keyed_of_mem he).2

theorem mem_polled {op : Operation} : r ∈ b.polled op ↔ r ∈ b.everyone ∧ op.asks r :=
  List.mem_filter

/-- A read asks each member once. -/
theorem place_eq_of_polled (hb : b.Steady) {op : Operation} {i j : Nat} {q : Ref}
    (hr : (b.polled op)[i]? = some r) (hq : (b.polled op)[j]? = some q)
    (hn : r.number = q.number) : i = j ∧ r = q := by
  have hgenuine : ∀ {k : Nat} {p : Ref}, (b.polled op)[k]? = some p → b.standing.Genuine p :=
    fun hp => genuine_of_mem_everyone hb (mem_polled.1 (List.mem_of_getElem? hp)).1
  obtain rfl := (hgenuine hr).ext (hgenuine hq) hn
  refine ⟨?_, rfl⟩
  have hnodup : (b.polled op).Nodup :=
    ((everyone_ascending hb).filter _).imp fun hlt he => by
      rw [he] at hlt
      exact UInt32.lt_irrefl _ hlt
  obtain ⟨hi, -⟩ := List.getElem?_eq_some_iff.1 hr
  exact (List.getElem?_inj hi hnodup).1 (hr.trans hq.symm)

/-- A member that is not registered is not registered again. -/
theorem registered_of_step (hb : b.Steady) (hg : b.standing.Genuine r) (hm : b.step m = some b')
    (h : Table.find? r.id b'.registry = some r) : Table.find? r.id b.registry = some r := by
  obtain hsame | ⟨c, a, next, -, hp, hact⟩ := registry_step hm
  · rwa [hsame] at h
  rw [hact] at h
  cases a with
  | find | roster | advance | discard => exact h
  | enrol kind id link =>
    simp only [act, Table.find?_put] at h
    split at h
    · -- the one that is registered under the id now has just been made
      have hlt : r.number < b.members.length := by simpa using hg.1
      rw [← Option.some.inj h] at hlt
      exact absurd hlt (Nat.lt_irrefl _)
    · exact h
  | reinstate q =>
    obtain ⟨refs, hregular, -⟩ := hb.of_phase hp rfl
    exact hregular.1.elim
  | strike q =>
    rw [find?_strike] at h
    split at h
    · cases h
    · exact h
  | dismiss kind id =>
    simp only [act] at h
    split at h
    · split at h
      · rw [Table.find?_remove] at h
        split at h
        · cases h
        · exact h
      · exact h
    · exact h

end Broker

/-! ## One look, and one poll -/

namespace Service

open Broker Program

variable {asked : Nat → Service} {timeout c : Nat} {past : List (Deed Upshot)}
  {b : Broker Upshot} {op : Operation} {d e : Deed Upshot} {q : Program Upshot}

/-- A read looks once who is to be asked. -/
theorem eq_of_opens (hr : Run (fun _ => Starts asked) (fresh timeout) past b) (hop : op.IsRead)
    (hd : d ∈ past) (he : e ∈ past) (hdc : d.Opens op c) (hec : e.Opens op c) : d = e := by
  obtain ⟨hdm, hdp⟩ := hdc
  obtain ⟨hem, hep⟩ := hec
  rw [program_of_isRead hop] at hdp hep
  exact hr.eq_of_act hd he hdm hdp hem hep

/-- Wherever a read is that has looked who is registered, it is asking those, or it has asked them.
-/
theorem at_deed (hr : Run (fun _ => Starts asked) (fresh timeout) past b) (hop : op.IsRead)
    (hc : asked c = .operation op) (hd : d ∈ past) (ho : d.Opens op c) (he : e ∈ past)
    (hq : e.before.left? c = some q) (hne : q ≠ (Service.operation op).program) :
    ∃ past₁ past₂, past = past₁ ++ e :: past₂ ∧
      Run (fun _ => Starts asked) (fresh timeout) past₁ e.before ∧
      Run (fun _ => Starts asked) e.before (e :: past₂) b ∧
      (q = op.poll (d.before.polled op) ∨
        ∃ outcomes, HasPolled op c past₁ (d.before.polled op) outcomes q) := by
  obtain ⟨past₁, past₂, rfl, h₁, h₂⟩ := hr.cut he
  refine ⟨past₁, past₂, rfl, h₁, h₂, ?_⟩
  obtain ⟨hnone, -⟩ | ⟨p, hp, hpolling⟩ := polling h₁ hop hc
  · rw [left?, hnone] at hq
    cases hq
  · rw [left?_of_phase hp] at hq
    obtain hstart | ⟨d', hd', ho', h⟩ := hpolling.of_left hq
    · exact absurd hstart hne
    · obtain rfl := eq_of_opens hr hop hd (List.mem_append_left _ hd') ho ho'
      exact h

/-- A member that turns to a ticket of a read is one of those whom the read asks, and the one at the
place of the ticket. -/
theorem polled_of_turnsTo (hr : Run (fun _ => Starts asked) (fresh timeout) past b)
    (hop : op.IsRead) (hc : asked c = .operation op) (hd : d ∈ past) (ho : d.Opens op c)
    (he : e ∈ past) {n i : Nat} {command : Command} (ht : e.TurnsTo n ⟨c, i⟩ command) :
    ∃ r, (d.before.polled op)[i]? = some r ∧ r.number = n ∧ command = .status := by
  have hmem : ⟨c, i⟩ ∈ e.before.queue n := List.mem_of_mem_head? ht.front
  obtain ⟨r, commands, next, hn, hr', hleft⟩ :=
    ((steady hr).2 e he).order.toQueuesOk.of_queued? hmem ht.queued
  have hne : Program.wait (.converse commands) next ≠ (Service.operation op).program := by
    rw [program_of_isRead hop]
    exact nofun
  obtain ⟨_, _, -, -, -, hpoll | ⟨outcomes, h⟩⟩ := at_deed hr hop hc hd ho he hleft hne
  · cases hpoll
    rw [List.getElem?_map, Option.map_eq_some_iff] at hr'
    obtain ⟨r', hi, hr'⟩ := hr'
    cases hr'
    exact ⟨_, hi, hn, rfl⟩
  · obtain ⟨steps, hpath, -⟩ := h.path
    have hmute : (Program.wait (.converse commands) next).Mute :=
      Within.leads (mute_afterPoll op _ outcomes) hpath
    exact hmute.1.elim

/-- Whatever is written for a read is a status query, to a member that turns to it. -/
theorem turnsTo_of_wrote (hr : Run (fun _ => Starts asked) (fresh timeout) past b)
    (hop : op.IsRead) (hc : asked c = .operation op) (hd : d ∈ past) (ho : d.Opens op c)
    (he : e ∈ past) {t : Ticket} {l : Nat} {line : String}
    (hw : e.event? = some (.wrote t l line)) (ht : t.call = c) :
    ∃ n, e.TurnsTo n t .status := by
  subst ht
  rcases Deed.of_wrote hw with ⟨next, hphase⟩ | ⟨n, rest, command, hm, hn, hq, -⟩
  · have hne : Program.wait (.greet l) next ≠ (Service.operation op).program := by
      rw [program_of_isRead hop]
      exact nofun
    obtain ⟨_, _, -, -, -, hpoll | ⟨outcomes, h⟩⟩ :=
      at_deed hr hop hc hd ho he (left?_of_phase hphase) hne
    · cases hpoll
    · obtain ⟨steps, hpath, -⟩ := h.path
      have hmute : (Program.wait (.greet l) next).Mute :=
        Within.leads (mute_afterPoll op _ outcomes) hpath
      exact hmute.1.elim
  · have hturn : e.TurnsTo n t command := ⟨hm, by rw [queue, hn]; rfl, hq⟩
    obtain ⟨_, -, -, rfl⟩ := polled_of_turnsTo hr hop hc hd ho he hturn
    exact ⟨n, hturn⟩

/-! ## The lines of a read -/

/-- What is written to a member that a read asks is what is written for its place. -/
theorem linesTo_of_polled (hr : Run (fun _ => Starts asked) (fresh timeout) past b)
    (hop : op.IsRead) (hc : asked c = .operation op) (hd : d ∈ past) (ho : d.Opens op c) {i : Nat}
    {r : Ref} (hi : (d.before.polled op)[i]? = some r) :
    linesTo r.number c past = linesFor c (eventsOf ⟨c, i⟩ (log past)) := by
  have hsteady := (steady hr).2 d hd
  rw [linesTo, linesFor, eventsOf, log, List.filterMap_filter, List.filterMap_filterMap]
  refine List.filterMap_congr fun e he => ?_
  rcases hevent : e.event? with _ | event
  · exact lineTo?_of_event hevent rfl
  rcases hline : Event.lineFor? c event with _ | x
  · rw [Option.bind_some, hline, ite_self]
    exact lineTo?_of_event hevent hline
  -- the line is that of a ticket, and the member at its place turns to it
  cases event with
  | wrote t l line =>
    have ht : t.call = c := by
      by_contra hne
      rw [Event.lineFor?, if_neg hne] at hline
      cases hline
    obtain ⟨n, hturn⟩ := turnsTo_of_wrote hr hop hc hd ho he hevent ht
    obtain ⟨k, j⟩ := t
    obtain rfl : k = c := ht
    obtain ⟨q, hj, hq, -⟩ := polled_of_turnsTo hr hop hc hd ho he hturn
    simp only [Deed.lineTo?, hturn.move, hevent, Option.bind_some, Event.ticket?]
    by_cases hji : j = i
    · subst hji
      obtain rfl := Option.some.inj (hi.symm.trans hj)
      rw [if_pos hq.symm]
      simp
    · have hne : n ≠ r.number := fun hn =>
        hji (place_eq_of_polled hsteady hj hi (hq.trans hn)).1
      simp [hne, hji]
  | _ => cases hline

/-- Nothing is written to anybody else. -/
theorem linesTo_of_not_polled (hr : Run (fun _ => Starts asked) (fresh timeout) past b)
    (hop : op.IsRead) (hc : asked c = .operation op) (hd : d ∈ past) (ho : d.Opens op c) {n : Nat}
    (hn : ∀ r ∈ d.before.polled op, r.number ≠ n) : linesTo n c past = [] := by
  refine List.filterMap_eq_nil_iff.2 fun e he => ?_
  rcases hevent : e.event? with _ | event
  · exact lineTo?_of_event hevent rfl
  cases event with
  | wrote t l line =>
    by_cases ht : t.call = c
    · obtain ⟨k, hturn⟩ := turnsTo_of_wrote hr hop hc hd ho he hevent ht
      obtain ⟨c', j⟩ := t
      obtain rfl : c' = c := ht
      obtain ⟨q, hj, rfl, -⟩ := polled_of_turnsTo hr hop hc hd ho he hturn
      rw [Deed.lineTo?, hturn.move]
      exact if_neg (hn q (List.mem_of_getElem? hj))
    · exact lineTo?_of_event hevent (if_neg ht)
  | _ => exact lineTo?_of_event hevent rfl

end Service

/-! ## The replies to a read -/

/-- A member has turned to a status query of a call, and a reply was read for it. -/
def Ref.Replies {ω : Type} (r : Ref) (past : List (Deed ω)) (c : Nat) : Prop :=
  ∃ i, (∃ d ∈ past, d.TurnsTo r.number ⟨c, i⟩ .status) ∧
    ∃ l raw, .ended ⟨c, i⟩ l (.ok raw) ∈ log past

theorem Ref.Replies.mono {ω : Type} {r : Ref} {past past' : List (Deed ω)} {c : Nat}
    (h : r.Replies past c) (hs : past ⊆ past') : r.Replies past' c := by
  obtain ⟨i, ⟨d, hd, hturn⟩, l, raw, hlogged⟩ := h
  obtain ⟨e, he, hevent⟩ := List.mem_filterMap.1 hlogged
  exact ⟨i, ⟨d, hs hd, hturn⟩, l, raw, List.mem_filterMap.2 ⟨e, hs he, hevent⟩⟩

theorem Ref.Replies.hasHeard {ω : Type} {r : Ref} {past : List (Deed ω)} {c : Nat}
    (h : r.Replies past c) : ∃ raw, HasHeard past c raw := by
  obtain ⟨i, -, l, raw, hlogged⟩ := h
  exact ⟨raw, ⟨c, i⟩, l, rfl, hlogged⟩

/-- A query that was not answered has come to nothing. -/
theorem HasPolled.silent {op : Operation} {c : Nat} {past : List (Deed Upshot)} {refs : List Ref}
    {outcomes : List Outcome} {q : Program Upshot} {r : Ref} {i : Nat}
    (h : HasPolled op c past refs outcomes q) (hi : refs[i]? = some r)
    (hno : ¬r.Replies past c) : ∃ s, outcomes[i]? = some (.error s) := by
  obtain ⟨o, ho, hexchanged⟩ := h.asked i r hi
  rcases o with s | raw
  · exact ⟨s, ho⟩
  · obtain ⟨l, hlogged⟩ := hexchanged.logged_iff.2 rfl
    exact absurd ⟨i, hexchanged.turned, l, raw, hlogged⟩ hno

namespace Service

open Broker Program

variable {asked : Nat → Service} {timeout c : Nat} {past : List (Deed Upshot)}
  {b : Broker Upshot} {op : Operation} {d e : Deed Upshot}

/-- A member replies to a read if a reply was read for its place. -/
theorem logged_of_replies (hr : Run (fun _ => Starts asked) (fresh timeout) past b)
    (hop : op.IsRead) (hc : asked c = .operation op) (hd : d ∈ past) (ho : d.Opens op c) {i : Nat}
    {r : Ref} (hi : (d.before.polled op)[i]? = some r) (h : r.Replies past c) :
    ∃ l raw, .ended ⟨c, i⟩ l (.ok raw) ∈ log past := by
  obtain ⟨j, ⟨e, he, hturn⟩, hlogged⟩ := h
  obtain ⟨q, hj, hq, -⟩ := polled_of_turnsTo hr hop hc hd ho he hturn
  obtain ⟨rfl, -⟩ := place_eq_of_polled ((steady hr).2 d hd) hj hi hq
  exact hlogged

end Service

end WorkerBroker
