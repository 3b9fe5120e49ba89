import WorkerBroker.Proofs.Announcements
import WorkerBroker.Proofs.Independence
/-!
# What becomes of a member that is told to end

A worker that is told to end may agree, refuse, or not answer, and a handle to its member may be
kept after the member was dropped from the registry, or after another one has taken its place there.
What the exit does to the member is a function of the answer (`View.afterExit`): the member is shut
and struck off, or left as it is, or struck off as dead unless it has a connection.

If the connection of the member is current, a command that is not answered has been written on it or
has found it broken, and in both cases the member has lost it. Then there are two ends only: the
member is gone, or nothing has happened to it (`Service.exit_decides`). Whoever else is registered
stays, whatever the end is, since to be struck off is to be taken out of one's own place.

But there are members whose connection is not current for good: a call has announced that it will
shut the member, or a new connection, and was given up while it waited for its turn
(`Proofs.Announcements`). Nobody shuts such a member. No command is written to it, and it has not
lost its connection either, so an exit leaves it registered as it is
(`Service.exit_leaves_behind`).
-/

namespace WorkerBroker

/-! ## The steps of an exit -/

/-- What follows from the answer to `exit`, for the member that was told. -/
def View.afterExit (r : Ref) (v : View) : Except Failure Json → View
  | .ok _ => View.strike r { v with member :=
      { v.member.cutOff with generation := v.member.generation + 1, retired := true } }
  | .error e => if e.isTransport then v.unregister r else v

namespace Program

variable {r : Ref} {responds : Bool → Outcome → Prop} {steps : List Step} {v v' : View}
  {answer : Except Failure Json}

/-- The outcome of a single command is looked for where it is. -/
theorem headD_of_getElem? {outcomes : List Outcome} {o o' : Outcome}
    (h : outcomes[0]? = some o) : outcomes.headD o' = o := by
  rw [List.headD_eq_head?_getD, List.head?_eq_getElem?, h]
  rfl

/-- A member that is told something has met with the command. -/
theorem chain_execute {command : Command} (hs : command.supportedBy r.kind)
    (hl : (execute r command).Leads steps (done answer))
    (hc : Step.Chain (Step.Bears r responds) steps v v') :
    ∃ o, answer = judge r command o ∧ v.Meets responds command.line o v' := by
  rw [execute, if_pos hs] at hl
  cases hl with
  | @wait _ _ outcomes _ _ hl =>
    obtain ⟨u, ⟨-, hmeets⟩, hc⟩ := hc
    obtain ⟨rfl, hanswer⟩ := hl.of_done
    obtain rfl : v' = u := hc
    have honly : IsOnly ([(r, command)].map Prod.fst) r 0 := by
      refine ⟨rfl, fun j q hj _ => ?_⟩
      rcases j with _ | j
      · rfl
      · cases hj
    obtain ⟨c, o, hcommand, ho, hmeets⟩ := hmeets 0 honly
    cases hcommand
    injection hanswer with hanswer
    exact ⟨o, hanswer.trans (congrArg _ (headD_of_getElem? ho)), hmeets⟩

/-- A member that is shut and struck off has nothing left. -/
theorem chain_afterExit (hl : (afterExit r answer).Leads steps (done ()))
    (hc : Step.Chain (Step.Bears r responds) steps v v') : v' = v.afterExit r answer := by
  cases answer with
  | ok value =>
    cases hl with
    | act hl =>
      cases hl with
      | wait hl =>
        cases hl with
        | act hl =>
          obtain ⟨u, hadvance, w, hshut, x, hstrike, hc⟩ := hc
          obtain ⟨rfl, -⟩ := hl.of_done
          obtain rfl : v' = x := hc
          simp only [Step.Bears, if_true] at hadvance hshut
          simp only [Step.Bears, true_and] at hstrike
          rw [hstrike, hshut, hadvance]
          rfl
  | error e =>
    simp only [afterExit] at hl
    rw [View.afterExit]
    split at hl
    · rename_i he
      obtain ⟨x, hs, -⟩ := hl.of_map_done
      rw [if_pos he, chain_unregisterDead_self hs hc]
    · rename_i he
      obtain ⟨rfl, -⟩ := hl.of_done
      rw [if_neg he]
      exact hc

/-- A member that is told to end has met with the command, and then with what follows from the
answer. -/
theorem chain_exit (hl : (exit r).Leads steps (done answer))
    (hc : Step.Chain (Step.Bears r responds) steps v v') :
    ∃ o u, answer = judge r .exit o ∧ v.Meets responds Command.exit.line o u ∧
      v' = u.afterExit r answer := by
  obtain ⟨s, x, t, rfl, hs, ht⟩ := hl.of_bind
  obtain ⟨⟨⟩, hafter, rfl⟩ := ht.of_map_done
  obtain ⟨u, hu, hc⟩ := hc.of_append
  have hsupported : Command.exit.supportedBy r.kind := by cases r.kind <;> rfl
  obtain ⟨o, rfl, hmeets⟩ := chain_execute hsupported hs hu
  exact ⟨o, u, rfl, hmeets, chain_afterExit hafter hc⟩

end Program

/-! ## What an encounter leaves of a settled member -/

section

variable {r : Ref} {responds : Bool → Outcome → Prop} {line : String} {m m' : Member}
  {v u v' : View} {o : Outcome} {lines : List (Nat × String)}

/-- A member whose connection is not current does not meet with a command at all. -/
theorem Encounter.of_unsettled (h : Encounter responds line m o m' lines) {ch : Channel}
    (hch : m.channel = some ch) (hg : ch.generation ≠ m.generation) :
    (∃ s, o = .error s) ∧ m' = m ∧ lines = [] := by
  have hno : ∀ l, ¬m.Uses l := by
    intro l hl
    cases hch.symm.trans hl
    exact hg rfl
  cases h with
  | refused _ s => exact ⟨⟨s, rfl⟩, rfl, rfl⟩
  | broken huses _ | replied huses _ | failed huses _ => exact absurd huses (hno _)

/-- What is left of a member whose connection was current, if it had one: after a reply it is as it
was, and without one it has lost the connection. -/
theorem Encounter.of_settled (h : Encounter responds line m o m' lines)
    (hm : ∀ ch, m.channel = some ch → ch.generation = m.generation) :
    (∃ raw, o = .ok raw ∧ m' = m ∧ ∃ l, m.Uses l) ∨ ∃ s, o = .error s ∧ m'.channel = none := by
  cases h with
  | refused hno s =>
    refine .inr ⟨s, rfl, Option.eq_none_iff_forall_ne_some.2 fun ch hch => hno ch.link ?_⟩
    rw [Member.Uses, hch, ← hm ch hch]
  | broken _ _ => exact .inr ⟨_, rfl, rfl⟩
  | @replied l raw huses _ => exact .inl ⟨raw, rfl, rfl, l, huses⟩
  | failed _ _ => exact .inr ⟨_, rfl, rfl⟩

/-- A member has been dropped: it is struck off and retired, and has no connection. -/
structure View.IsDropped (r : Ref) (v v' : View) : Prop where
  struck : v'.entry = (v.strike r).entry
  retired : v'.member.retired
  unplugged : v'.member.channel = none

/-- Whoever else is registered under the id of a member that is dropped stays so. -/
theorem View.IsDropped.entry_iff {q : Ref} (h : v.IsDropped r v') (hq : q ≠ r) :
    v'.entry = some q ↔ v.entry = some q := by
  rw [h.struck, View.strike]
  split
  · rename_i hr
    rw [hr]
    simpa using Ne.symm hq
  · rfl

/-- An exit drops a member whose connection was current, if it had one, unless its worker has
reported an error. Then the member is as it was. -/
theorem View.Meets.ends (h : v.Meets responds line o u)
    (hm : ∀ ch, v.member.channel = some ch → ch.generation = v.member.generation)
    (hv : v' = u.afterExit r (Program.judge r .exit o)) :
    (∀ detail reply, Program.judge r .exit o ≠ .error (.rejected detail reply)) ∧
        v.IsDropped r v' ∨
      (∃ detail reply, Program.judge r .exit o = .error (.rejected detail reply)) ∧
        v'.entry = v.entry ∧ v'.member = v.member ∧ ∃ l, v.member.Uses l := by
  obtain ⟨lines, henc, hentry, -⟩ := h
  subst hv
  rcases henc.of_settled hm with ⟨raw, rfl, hmember, huses⟩ | ⟨s, rfl, hch⟩
  · rw [Program.judge]
    rcases hd : decodeReply raw with e | value
    · obtain ⟨detail, reply, rfl⟩ := rejected_of_decodeReply hd
      exact .inr ⟨⟨detail, reply, rfl⟩, hentry, hmember, huses⟩
    · exact .inl ⟨(fun _ _ he => by cases he),
        by simp only [View.afterExit, View.strike, hentry], rfl, rfl⟩
  · refine .inl ⟨(fun _ _ he => by cases he), ?_⟩
    have hunregister : u.afterExit r (Program.judge r .exit (.error s)) =
        { u.strike r with member := { u.member with retired := true } } := if_pos hch
    rw [hunregister]
    exact ⟨by simp only [View.strike, hentry], rfl, hch⟩

/-- An exit leaves a member as it is whose connection is not current. -/
theorem View.Meets.lingers (h : v.Meets responds line o u) {ch : Channel}
    (hch : v.member.channel = some ch) (hg : ch.generation ≠ v.member.generation)
    (hv : v' = u.afterExit r (Program.judge r .exit o)) :
    (∃ s, o = .error s) ∧ v' = v := by
  obtain ⟨lines, henc, hentry, hlines⟩ := h
  obtain ⟨⟨s, rfl⟩, hmember, rfl⟩ := henc.of_unsettled hch hg
  rw [List.append_nil] at hlines
  obtain rfl : u = v := by
    cases u
    cases v
    simp_all
  have hsome : u.member.channel ≠ none := by simp [hch]
  have hkept : u.afterExit r (Program.judge r .exit (.error s)) = u := if_neg hsome
  exact ⟨⟨s, rfl⟩, hv.trans hkept⟩

end

/-! ## Who else is registered -/

namespace Program

variable {r : Ref} {steps : List Step} {answer : Except Failure Json} {a : Act} {x : a.Answer}

theorem within_execute {acts : Act → Prop} (r : Ref) (command : Command) :
    (execute r command).Within acts (fun _ => True) fun _ => True := by
  unfold execute
  split
  · exact ⟨trivial, fun _ => trivial⟩
  · trivial

/-- The acts of an exit only see to the end of the member, and there are none if the worker has
reported an error. -/
theorem act_of_exit (hl : (exit r).Leads steps (done answer)) (ha : .act a x ∈ steps) :
    Request.IsClosing r a ∧ ∀ detail reply, answer ≠ .error (.rejected detail reply) := by
  have hafter : ∀ y : Except Failure Json,
      ((afterExit r y).bind fun _ => done y).Within (Request.IsClosing r) (fun _ => True)
        fun _ => True := fun y =>
    ((Request.within_afterExit y).mono (fun _ h => h) fun _ _ => trivial).bind fun _ _ => trivial
  refine ⟨((within_execute r .exit).bind fun y _ => hafter y).act_of_mem hl ha, ?_⟩
  rintro detail reply rfl
  obtain ⟨s, y, t, rfl, hs, ht⟩ := hl.of_bind
  rcases List.mem_append.1 ha with ha | ha
  · have hnone : (execute r .exit).Within (fun _ => False) (fun _ => True) fun _ => True :=
      within_execute r .exit
    exact (hnone.act_of_mem hs ha).elim
  · obtain ⟨⟨⟩, ht, rfl⟩ := ht.of_map_done
    obtain ⟨rfl, -⟩ := ht.of_done
    cases ha

end Program

namespace Broker

variable {ω : Type} {b b' : Broker ω} {m : Move ω}

/-- Who is registered changes by acts only. -/
theorem registry_step (hm : b.step m = some b') :
    b'.registry = b.registry ∨ ∃ c a next, m = .run c ∧
      b.phase? c = some (.running (.act a next)) ∧ b'.registry = (b.act a).2.registry := by
  have hshift := standing_step hm
  rw [← registry_standing b', ← registry_standing b]
  generalize b'.standing = s at hshift ⊢
  cases hshift with
  | still | accepted => exact .inl rfl
  | @acted c a next hp => exact .inr ⟨c, a, next, rfl, hp, rfl⟩
  | turned turn => exact .inl (registry_take b _ turn)
  | cut n => exact .inl (Standing.registry_disconnect n _)

/-- Whoever sees to the end of a member leaves everybody else registered. -/
theorem find?_act_of_isClosing {a : Act} {r q : Ref} (ha : Request.IsClosing r a) (hq : q ≠ r)
    (i : UInt32) :
    Table.find? i (b.act a).2.registry = some q ↔ Table.find? i b.registry = some q := by
  obtain rfl | rfl := ha
  · rfl
  · rw [find?_strike]
    split
    · rename_i h
      rw [h.2]
      simpa using Ne.symm hq
    · rfl

end Broker

/-! ## The theorem -/

namespace Broker

variable {ω : Type}

/-- A member is not registered any more, has been retired, and has no connection. If it had one
before, that is closed. -/
structure Drops (a : Broker ω) (r : Ref) (b : Broker ω) : Prop where
  unregistered : ∀ e ∈ b.registry, e.2 ≠ r
  retired : (b.member r.number).retired
  unplugged : (b.member r.number).channel = none
  closed : ∀ ch, (a.member r.number).channel = some ch → b.standing.IsClosed ch.link

/-- A member is what it was before, the same one is registered under its id, and it has a connection
for more commands, unless its worker resets that, and no call of this number to wait for. -/
structure Retains (a : Broker ω) (r : Ref) (c : Nat) (b : Broker ω) : Prop where
  entry : Table.find? r.id b.registry = Table.find? r.id a.registry
  member : b.standing.member r.number = a.standing.member r.number
  serves : ∃ l, b.Current r.number l ∧
    ((b.link l).inbox.ending ≠ .reset → b.Usable r.number l)
  free : ∀ t ∈ b.queue r.number, t.call ≠ c

/-- A member is what it was before, and the same one is registered under its id. If it has a
connection, that is open. -/
structure Lingers (a : Broker ω) (r : Ref) (b : Broker ω) : Prop where
  entry : Table.find? r.id b.registry = Table.find? r.id a.registry
  member : b.standing.member r.number = a.standing.member r.number
  plugged : ∀ ch, (b.member r.number).channel = some ch → (b.link ch.link).closed = false

end Broker

namespace Service

open Broker

/-- No other call is at work on a member while a call goes on: whatever others do leaves the member
alone or happens at another id. -/
def IsUndisturbed (asked : Nat → Service) (past under : List (Deed Upshot)) (c : Nat) (r : Ref) :
    Prop :=
  ∀ d ∈ under, d.before.mover? d.move ≠ some c →
    d.LeavesAlone r ∨ ∃ i, i ≠ r.id ∧ d.IsAt asked (past ++ under) i

/-- What the answer to an exit says of the member that was told to end, and of all others. -/
structure Decides (past under : List (Deed Upshot)) (a : Broker Upshot) (r : Ref) (c : Nat)
    (answer : Except Failure Json) (b : Broker Upshot) : Prop where
  /-- the worker has replied, and reports no error -/
  ended : ∀ raw value, HasHeard (past ++ under) c raw → decodeReply raw = .ok value →
    answer = .ok value ∧ a.Drops r b
  /-- the worker has replied that something is wrong: nothing has been done -/
  refused : ∀ raw e, HasHeard (past ++ under) c raw → decodeReply raw = .error e →
    answer = .error e ∧ a.Retains r c b ∧
      ∀ d ∈ under, d.before.mover? d.move = some c → ∀ b', d.before.step d.move = some b' →
        b'.registry = d.before.registry
  /-- the worker has not replied -/
  silent : (∀ raw, ¬HasHeard (past ++ under) c raw) →
    (∃ s : Silence, answer = .error (.noReply r.label Command.exit.verb s.reason)) ∧
      (a.standing.IsSettled r.number → a.Drops r b)
  /-- somebody has announced something to the member and has not done it: nothing is written to the
  worker, and nothing happens to the member -/
  stuck : ¬a.standing.IsSettled r.number →
    (∃ k ∈ advancers r past, a.IsActive k ∨ k ∈ quitters r past) ∧
      (∀ raw, ¬HasHeard (past ++ under) c raw) ∧ linesTo r.number c under = [] ∧ a.Lingers r b
  /-- whoever has the id instead of the member keeps it -/
  displaced : ∀ q, q ≠ r →
    (Table.find? r.id b.registry = some q ↔ Table.find? r.id a.registry = some q)
  /-- and nobody else is touched at any id -/
  others : ∀ d ∈ under, d.before.mover? d.move = some c → ∀ b', d.before.step d.move = some b' →
    ∀ i q, q ≠ r →
      (Table.find? i b'.registry = some q ↔ Table.find? i d.before.registry = some q)

section

variable {asked : Nat → Service} {timeout c : Nat} {past under : List (Deed Upshot)}
  {a b : Broker Upshot} {r : Ref} {x : Result}

/-- A member that is undisturbed is left to the call. -/
theorem IsUndisturbed.isLeftTo (h : IsUndisturbed asked past under c r)
    (ha : Run (fun _ => Starts asked) (fresh timeout) past a)
    (hr : Run (fun _ => Starts asked) a under b) (hg : a.standing.Genuine r) :
    IsLeftTo r c under := by
  intro d hd hc
  obtain hleaves | ⟨i, hi, hat⟩ := h d hd hc
  · exact hleaves
  intro b' hm
  obtain ⟨past₁, past₂, rfl, hbefore, -⟩ := hr.cut hd
  have hall : past ++ past₁ ⊆ past ++ (past₁ ++ d :: past₂) := by
    rw [← List.append_assoc]
    exact List.subset_append_left _ _
  have hapart := apart_step (ha.append hbefore) hall hm hat
  obtain ⟨hlt, -, hid⟩ := hbefore.genuine hg
  have helsewhere : d.before.IsElsewhere i r.number := by
    refine ⟨by simpa using hlt, ?_⟩
    rw [member_standing] at hid
    exact fun h => hi (h.symm.trans hid)
  refine ⟨hapart.entry r.id (Ne.symm hi), ?_⟩
  rw [member_standing, member_standing, hapart.member _ helsewhere]

/-- If only one call goes on, every member is left to it in a silent run. -/
theorem isLeftTo_of_isSilent {h : Endless (Starts asked) a} (hs : h.IsSilent)
    (honly : ∀ k, a.IsActive k → k = c) (r : Ref) (n : Nat) : IsLeftTo r c (h.past n) := by
  intro d hd hother
  obtain ⟨i, -, rfl⟩ := List.mem_map.1 hd
  obtain hmover | ⟨time, hpass⟩ := (hs.alone honly i).2
  · exact absurd hmover hother
  · intro b' hm
    rw [hpass] at hm
    cases hm
    exact ⟨rfl, rfl⟩

/-- The answer to an exit is what the outcome of the command comes to, and a reply was read if the
command has come to one. -/
theorem answer_of_exit (hr : Run (fun _ => Starts asked) (fresh timeout) past b)
    (hop : asked c = .operation (.exit r)) (hx : result? c b = some x) :
    ∃ o, x = .reply (Program.judge r .exit o) ∧ ∀ raw, HasHeard past c raw ↔ o = .ok raw := by
  have hprogram : (asked c).program = .wait (.converse [(r, .exit)]) fun outcomes =>
      let answer := Program.judge r .exit (outcomes.headD (.error .closed))
      (((Program.afterExit r answer).bind fun _ => .done answer).bind fun y =>
        .done (.reply y)).bind fun x => .done (.result x) := by
    have hsupported : Command.exit.supportedBy r.kind := by cases r.kind <;> rfl
    rw [hop, program, Operation.program, Program.exit, Program.execute, if_pos hsupported]
    rfl
  have hP : (asked c).program.AsksOnce := by
    have hexit : (Operation.exit r).program.AsksOnce :=
      (Program.asksOnce_exit r).bind fun _ => trivial
    rw [hop]
    exact hexit.bind fun _ => trivial
  have hend := phase?_of_result? hx
  obtain ⟨hnone, -⟩ | ⟨p, hp, hconv⟩ := conversation hr hP
  · cases hend.symm.trans hnone
  obtain rfl := Option.some.inj (hend.symm.trans hp)
  rw [hprogram] at hconv
  cases hconv with
  | before hpath hsteps hleft _ _ =>
    cases hleft
    cases hpath with
    | @wait w _ outcomes => exact absurd (hsteps (.wait _ outcomes) (by simp)).1 id
  | @answered _ _ commands next outcomes steps rest hpath hsteps h hno hrest _ hleft =>
    cases hleft
    cases hpath with
    | @wait w _ outcomes => exact absurd (hsteps (.wait _ outcomes) (by simp)).1 id
    | refl =>
      obtain ⟨o, ho, hexchanged⟩ := h 0 r .exit rfl
      refine ⟨o, ?_, fun raw => (hasHeard_of_one hno).trans hexchanged.heard_iff⟩
      obtain ⟨y, hreply, hy⟩ := hrest.of_map_done
      obtain ⟨answer, hafter, rfl⟩ := hreply.of_map_done
      obtain ⟨⟨⟩, -, rfl⟩ := hafter.of_map_done
      cases hy
      rw [Program.headD_of_getElem? ho]

/-- Whatever act an operation makes is on its way to the result. -/
theorem act_of_result {op : Operation} {d : Deed Upshot} {act : Act}
    {next : act.Answer → Program Upshot}
    (hr : Run (fun _ => Starts asked) (fresh timeout) past b) (hd : d ∈ past)
    (hop : asked c = .operation op) (hx : result? c b = some x)
    (hp : d.before.phase? c = some (.running (.act act next))) :
    ∃ steps, op.program.Leads steps (.done x) ∧ ∃ y, .act act y ∈ steps := by
  have hend := phase?_of_result? hx
  obtain ⟨past₁, past₂, rfl, h₁, h₂⟩ := hr.cut hd
  obtain ⟨s, q, hq, hpath, -⟩ := path h₁ (left?_of_phase hp)
  cases (left?_of_phase hp).symm.trans hq
  obtain hgone | ⟨t, q, hq, hrest, -⟩ := h₁.leads h₂ (left?_of_phase hp)
  · cases hend.symm.trans hgone
  cases (left?_of_phase hend).symm.trans hq
  have hall := hpath.trans hrest
  rw [hop] at hall
  obtain ⟨z, hlead, hz⟩ := Program.Leads.of_map_done hall
  cases hz
  refine ⟨_, hlead, ?_⟩
  cases hrest with
  | @act _ _ y _ _ _ => exact ⟨y, List.mem_append_right _ List.mem_cons_self⟩

/-- A move of an exit changes the registry by nothing but an act that sees to the end of the member,
and not at all if the worker has reported an error. -/
theorem registry_of_exit {answer : Except Failure Json} {d : Deed Upshot} {b' : Broker Upshot}
    (hr : Run (fun _ => Starts asked) (fresh timeout) past b) (hd : d ∈ past)
    (hop : asked c = .operation (.exit r)) (hx : result? c b = some (.reply answer))
    (hc : d.before.mover? d.move = some c) (hm : d.before.step d.move = some b') :
    b'.registry = d.before.registry ∨
      (∀ detail reply, answer ≠ .error (.rejected detail reply)) ∧
        ∃ act, Request.IsClosing r act ∧ b'.registry = (d.before.act act).2.registry := by
  obtain hsame | ⟨k, act, next, hmove, hp, hact⟩ := registry_step hm
  · exact .inl hsame
  · rw [hmove] at hc
    cases hc
    obtain ⟨steps, hlead, y, hy⟩ := act_of_result hr hd hop hx hp
    obtain ⟨z, hs, hz⟩ := hlead.of_map_done
    cases hz
    obtain ⟨hclosing, hno⟩ := Program.act_of_exit hs hy
    exact .inr ⟨hno, act, hclosing, hact⟩

/-- A member that is struck off is not registered under any id. -/
theorem drops_of_isDropped (ha : Run (fun _ => Starts asked) (fresh timeout) past a)
    (hr : Run (fun _ => Starts asked) a under b)
    (h : (a.view r c []).IsDropped r (b.view r c under)) : a.Drops r b where
  unregistered e he := by
    rintro rfl
    have hb := (steady (ha.append hr)).1.sound
    have hentry : Table.find? e.2.id b.registry = some e.2 := by
      rw [(hb.keyed_of_mem he).1]
      exact hb.ascending.find?_eq_some he
    have hstruck : Table.find? e.2.id b.registry = _ := h.struck
    rw [hentry, View.strike] at hstruck
    split at hstruck
    · cases hstruck
    · rename_i hno
      exact hno hstruck.symm
  retired := by
    rw [← retired_standing]
    exact h.retired
  unplugged := by
    rw [← channel_standing]
    exact h.unplugged
  closed ch hch := by
    rw [← channel_standing] at hch
    refine (closes ha hr hch).resolve_left fun hsome => ?_
    cases h.unplugged.symm.trans hsome

/-- A member that is as it was, with a connection that is current, serves as before. -/
theorem retains_of_same (ha : Run (fun _ => Starts asked) (fresh timeout) past a)
    (hr : Run (fun _ => Starts asked) a under b) (hx : result? c b = some x)
    (hentry : (b.view r c under).entry = (a.view r c []).entry)
    (hmember : (b.view r c under).member = (a.view r c []).member) {l : Nat}
    (hl : (a.view r c []).member.Uses l) : a.Retains r c b where
  entry := hentry
  member := hmember
  serves := by
    have hcur : b.Current r.number l := by
      rw [← uses_iff]
      exact (congrArg (Member.Uses · l) hmember).mpr hl
    exact ⟨l, hcur, usable_of_current (ha.append hr) hcur⟩
  free t ht := by
    rintro rfl
    -- a call that is over waits for nothing
    obtain ⟨p, hp, hw⟩ := ((steady (ha.append hr)).1.order.mem_iff _ t).1 ht
    cases hp.symm.trans (phase?_of_result? hx)
    exact hw

/-- A member whose connection is not current is as it was after an exit. -/
theorem lingers_of_same (ha : Run (fun _ => Starts asked) (fresh timeout) past a)
    (hr : Run (fun _ => Starts asked) a under b) (h : b.view r c under = a.view r c []) :
    linesTo r.number c under = [] ∧ a.Lingers r b := by
  obtain ⟨hand, hhanded⟩ := handed (ha.append hr)
  refine ⟨congrArg View.lines h, congrArg View.entry h, congrArg View.member h, fun ch hch => ?_⟩
  rw [← channel_standing] at hch
  exact closed_of_isOpen (hhanded.held.channel _ _ hch)

/-- What becomes of a member in an exit that is over. -/
theorem ends_of_exit {o : Outcome} (ha : Run (fun _ => Starts asked) (fresh timeout) past a)
    (hr : Run (fun _ => Starts asked) a under b) (hop : asked c = .operation (.exit r))
    (hg : a.standing.Genuine r) (hnew : a.phase? c = none)
    (hx : result? c b = some (.reply (Program.judge r .exit o)))
    (halone : IsUndisturbed asked past under c r) :
    (a.standing.IsSettled r.number ∧
      ((∀ detail reply, Program.judge r .exit o ≠ .error (.rejected detail reply)) ∧
          (a.view r c []).IsDropped r (b.view r c under) ∨
        (∃ detail reply, Program.judge r .exit o = .error (.rejected detail reply)) ∧
          a.Retains r c b)) ∨
      ¬a.standing.IsSettled r.number ∧ (∃ s, Program.judge r .exit o =
        .error (.noReply r.label Command.exit.verb (Silence.reason s))) ∧
        linesTo r.number c under = [] ∧ a.Lingers r b := by
  obtain ⟨steps, hlead, hchain⟩ :=
    chain_of_result ha hr hop hnew hx hg (halone.isLeftTo ha hr hg)
  obtain ⟨z, hs, hz⟩ := hlead.of_map_done
  cases hz
  obtain ⟨o', u, hanswer, hmeets, hview⟩ := Program.chain_exit hs hchain
  rw [hanswer] at hview
  by_cases hsettled : a.standing.IsSettled r.number
  · refine .inl ⟨hsettled, ?_⟩
    have hends := hmeets.ends hsettled hview
    rw [← hanswer] at hends
    obtain ⟨hno, hdropped⟩ | ⟨hrejected, hentry, hmember, l, hl⟩ := hends
    · exact .inl ⟨hno, hdropped⟩
    · exact .inr ⟨hrejected, retains_of_same ha hr hx hentry hmember hl⟩
  · refine .inr ⟨hsettled, ?_⟩
    simp only [Standing.IsSettled, not_forall] at hsettled
    obtain ⟨ch, hch, hgeneration⟩ := hsettled
    obtain ⟨⟨s, rfl⟩, hsame⟩ := hmeets.lingers hch hgeneration hview
    exact ⟨⟨s, hanswer⟩, lingers_of_same ha hr hsame⟩

/-- An exit that is over has decided what becomes of the member. -/
theorem decides_of_end (ha : Run (fun _ => Starts asked) (fresh timeout) past a)
    (hr : Run (fun _ => Starts asked) a under b) (hop : asked c = .operation (.exit r))
    (hg : a.standing.Genuine r) (hnew : a.phase? c = none) {answer : Except Failure Json}
    (hx : result? c b = some (.reply answer)) (halone : IsUndisturbed asked past under c r) :
    Decides past under a r c answer b := by
  obtain ⟨o, hanswer, hheard⟩ := answer_of_exit (ha.append hr) hop hx
  injection hanswer with hanswer
  subst hanswer
  have hends := ends_of_exit ha hr hop hg hnew hx halone
  have hregistry {d : Deed Upshot} (hd : d ∈ under) (hc : d.before.mover? d.move = some c)
      {b' : Broker Upshot} (hm : d.before.step d.move = some b') :=
    registry_of_exit (ha.append hr) (List.mem_append_right past hd) hop hx hc hm
  refine ⟨fun raw value hraw hvalue => ?_, fun raw e hraw he => ?_,
    fun hno => ⟨?_, fun hsettled => ?_⟩, fun hstuck => ⟨?_, fun raw hraw => ?_, ?_⟩, fun q hq => ?_,
    fun d hd hc b' hm i q hq => ?_⟩
  · obtain rfl := (hheard raw).1 hraw
    have hjudge : Program.judge r .exit (.ok raw) = .ok value := hvalue
    obtain ⟨-, ⟨-, hdropped⟩ | ⟨⟨_, _, he⟩, -⟩⟩ | ⟨-, ⟨s, he⟩, -⟩ := hends
    · exact ⟨hvalue, drops_of_isDropped ha hr hdropped⟩
    all_goals cases hjudge.symm.trans he
  · obtain rfl := (hheard raw).1 hraw
    have hjudge : Program.judge r .exit (.ok raw) = .error e := he
    obtain ⟨detail, reply, rfl⟩ := rejected_of_decodeReply he
    obtain ⟨-, ⟨hno, -⟩ | ⟨-, hretains⟩⟩ | ⟨-, ⟨s, he'⟩, -⟩ := hends
    · exact absurd hjudge (hno detail reply)
    · exact ⟨he, hretains, fun d hd hc b' hm =>
        (hregistry hd hc hm).resolve_right fun h => h.1 detail reply hjudge⟩
    · cases hjudge.symm.trans he'
  · rcases o with s | raw
    · exact ⟨s, rfl⟩
    · exact absurd ((hheard raw).2 rfl) (hno raw)
  · obtain ⟨-, ⟨-, hdropped⟩ | ⟨⟨detail, reply, he⟩, -⟩⟩ | ⟨hstuck, -⟩ := hends
    · exact drops_of_isDropped ha hr hdropped
    · rcases o with s | raw
      · cases he
      · exact absurd ((hheard raw).2 rfl) (hno raw)
    · exact absurd hsettled hstuck
  · by_contra hnobody
    refine hstuck (isSettled ha hg fun k hk => not_or.1 fun h => hnobody ⟨k, hk, h⟩)
  · obtain rfl := (hheard raw).1 hraw
    obtain ⟨hsettled, -⟩ | ⟨-, ⟨s, he⟩, -⟩ := hends
    · exact hstuck hsettled
    · obtain ⟨detail, reply, he'⟩ := rejected_of_decodeReply he
      cases he'
  · exact (hends.resolve_left fun h => hstuck h.1).2.2
  · obtain ⟨-, ⟨-, hdropped⟩ | ⟨-, hretains⟩⟩ | ⟨-, -, -, hlingers⟩ := hends
    · exact hdropped.entry_iff hq
    · exact iff_of_eq (congrArg (· = some q) hretains.entry)
    · exact iff_of_eq (congrArg (· = some q) hlingers.entry)
  · obtain hsame | ⟨-, act, hclosing, hact⟩ := hregistry hd hc hm
    · rw [hsame]
    · rw [hact]
      exact find?_act_of_isClosing hclosing hq i

/-- An exit comes to its end in every fair run in which it is not given up, and if no other call is at
work on the member, its answer says what has become of that. It makes no difference whether the
member was still registered at the beginning, or which connection it had, or what else the worker
does. After a reply without error the member is unregistered and retired, and its connection is
closed. After a reply that something is wrong, the registry is as it was, and so is the member, with
its connection. Without a reply the member is unregistered and retired, too, unless somebody who has
announced something to it was given up, or has not gone on; then it is as it was, although nobody has
written to it. Whoever else is registered stays so. -/
theorem exit_decides (ha : Run (fun _ => Starts asked) (fresh timeout) past a)
    (hop : asked c = .operation (.exit r)) (hg : a.standing.Genuine r) (hnew : a.phase? c = none) :
    Yields asked a c fun under b y => ∃ answer, y = .result (.reply answer) ∧
      (IsUndisturbed asked past under c r → Decides past under a r c answer b) := by
  refine yields ha fun hr hend => ?_
  obtain ⟨x, rfl, hx⟩ := exists_result (ha.append hr) hop hend
  obtain ⟨o, rfl, -⟩ := answer_of_exit (ha.append hr) hop hx
  exact ⟨_, rfl, decides_of_end ha hr hop hg hnew hx⟩

/-- A member whose exit is answered with an error that the worker reports is as it was. -/
theorem Decides.retains {detail : String} {reply : Json}
    (h : Decides past under a r c (.error (.rejected detail reply)) b) : a.Retains r c b := by
  by_cases hheard : ∃ raw, HasHeard (past ++ under) c raw
  · obtain ⟨raw, hraw⟩ := hheard
    rcases hd : decodeReply raw with e | value
    · exact (h.refused raw e hraw hd).2.1
    · cases (h.ended raw value hraw hd).1
  · obtain ⟨⟨s, hs⟩, -⟩ := h.silent (not_exists.1 hheard)
    cases hs

/-- With any other answer it is dropped, if nothing had been announced to it. -/
theorem Decides.drops {answer : Except Failure Json} (h : Decides past under a r c answer b)
    (hsettled : a.standing.IsSettled r.number)
    (hno : ∀ detail reply, answer ≠ .error (.rejected detail reply)) : a.Drops r b := by
  by_cases hheard : ∃ raw, HasHeard (past ++ under) c raw
  · obtain ⟨raw, hraw⟩ := hheard
    rcases hd : decodeReply raw with e | value
    · obtain ⟨detail, reply, rfl⟩ := rejected_of_decodeReply hd
      exact absurd (h.refused raw _ hraw hd).1 (hno detail reply)
    · exact (h.ended raw value hraw hd).2
  · exact (h.silent (not_exists.1 hheard)).2 hsettled

end

end Service

/-! ## A handle that is kept for too long -/

/-- Whether an answer is an error that the worker reports. -/
def Result.isRejection : Result → Bool
  | .reply (.error (.rejected _ _)) => true
  | _ => false

theorem Result.eq_of_isRejection : ∀ {answer}, (Result.reply answer).isRejection →
    ∃ detail reply, answer = .error (.rejected detail reply)
  | .error (.rejected detail raw), _ => ⟨detail, raw, rfl⟩

namespace Service

open Broker

/-- A worker connects, and once more, it is dropped from the registry, and another one takes its id.
Whoever has the first one's handle tells it to end. -/
def staleExit : Nat → Service
  | 2 => .operation (.terminate .nfv 1)
  | 3 => .operation (.registerSecondary 2)
  | 4 => .operation (.exit ⟨0, .nfv, 1⟩)
  | l => .operation (.registerSecondary l)

/-- The other worker has come. -/
def idTaken : List (Option (Move Upshot)) :=
  nfvArrives ++
    ([some .accept, none, some (.run 1), some (.signal 1 (.bytes nfvAnswer)), some (.hear 1),
      some (.run 1), some (.run 1), some (.run 1), some (.serve 0), some (.run 1),
      none, some (.run 2), some (.run 2),
      some .accept, none, some (.run 3), some (.signal 2 (.bytes "[\"vf\",1]".toUTF8.toList)),
      some (.hear 3), some (.run 3), some (.run 3), some (.run 3)] : List (Option (Move Upshot)))

/-- The first worker is told to end, and does this. Then the call goes on to its end. -/
def exitMet (signal : Signal) (rest : List (Move Upshot)) : List (Option (Move Upshot)) :=
  [none, some (.run 4), some (.serve 0), some (.signal 1 signal), some (.receive 4 0)] ++
    rest.map some

/-- The exit is over and has been rejected or not, the first worker was left to it, and the other
one is registered as before. -/
def exitEnds (a : Broker Upshot) (rejected : Bool) (s : List (Deed Upshot) × Broker Upshot) :
    Bool :=
  (result? 4 s.2).map Result.isRejection = some rejected ∧ IsLeftTo ⟨0, .nfv, 1⟩ 4 s.1 ∧
    s.2.registry = a.registry

/-- The exit goes on, nothing else does, the first worker was left to it and has not replied. -/
def exitWaits (s : List (Deed Upshot) × Broker Upshot) : Bool :=
  hearsNothing 4 (log s.1) ∧ IsLeftTo ⟨0, .nfv, 1⟩ 4 s.1 ∧ (s.2.left? 4).isSome ∧
    ∀ k ∈ List.range s.2.calls.length, s.2.IsActive k → k = 4

/-- The first worker agrees, or refuses, or ends its stream without an answer, or is silent for ever.
It is gone, or still there, or gone in the end, and the other one stays registered. -/
theorem exit_decides_for_stale_handle :
    ∃ past a, Run (fun _ => Starts staleExit) (fresh 5) past a ∧
      a.registry = [(1, ⟨1, .vf, 1⟩)] ∧
      (∃ under b, Run (fun _ => Starts staleExit) a under b ∧ b.registry = a.registry ∧
        a.Drops ⟨0, .nfv, 1⟩ b) ∧
      (∃ under b, Run (fun _ => Starts staleExit) a under b ∧ b.registry = a.registry ∧
        a.Retains ⟨0, .nfv, 1⟩ 4 b) ∧
      (∃ under b, Run (fun _ => Starts staleExit) a under b ∧ b.registry = a.registry ∧
        a.Drops ⟨0, .nfv, 1⟩ b) ∧
      ∃ under b, Run (fun _ => Starts staleExit) a under b ∧
        ∃ (h : Endless (Starts staleExit) b) (n : Nat),
          Table.find? 1 (h.state n).registry = some ⟨1, .vf, 1⟩ ∧
            a.Drops ⟨0, .nfv, 1⟩ (h.state n) := by
  obtain ⟨past, a, ha, hregistry, hknows, hnew, hsettled, hbefore, hagrees, hrefuses, hhangs,
      hwaits⟩ :
      ∃ past a, Run (fun _ => Starts staleExit) (fresh 5) past a ∧
        a.registry = [(1, ⟨1, .vf, 1⟩)] ∧ a.Knows ⟨0, .nfv, 1⟩ ∧ (a.phase? 4).isNone ∧
        a.standing.IsSettled 0 ∧ hearsNothing 4 (log past) ∧
        (enact staleExit (exitMet (.bytes "[]".toUTF8.toList)
          [.run 4, .run 4, .serve 0, .run 4, .run 4]) [] a).any (exitEnds a false) ∧
        (enact staleExit (exitMet
          (.bytes "\x7b\"results\": [\x7b\"result\": \"error\"\x7d]\x7d".toUTF8.toList)
          [.run 4]) [] a).any (exitEnds a true) ∧
        (enact staleExit (exitMet .ended [.run 4, .serve 0, .run 4, .run 4]) [] a).any
          (exitEnds a false) ∧
        (enact staleExit [none, some (.run 4), some (.serve 0)] [] a).any exitWaits :=
    exists_run_of_enact staleExit idTaken (by decide +kernel)
  have hdecided := exit_decides (c := 4) ha rfl ((steady ha).1.genuine_of_knows hknows)
    (Option.isNone_iff_eq_none.1 hnew)
  have hdecides : ∀ {script rejected}, (enact staleExit script [] a).any (exitEnds a rejected) →
      ∃ under b, Run (fun _ => Starts staleExit) a under b ∧ b.registry = a.registry ∧
        if rejected then a.Retains ⟨0, .nfv, 1⟩ 4 b else a.Drops ⟨0, .nfv, 1⟩ b := by
    intro script rejected h
    obtain ⟨under, b, hb, h⟩ := exists_run_after h
    obtain ⟨hresult, hleft, hsame⟩ := of_decide_eq_true h
    obtain ⟨x, hx, hrejected⟩ := Option.map_eq_some_iff.1 hresult
    obtain ⟨answer, hanswer, hdecides⟩ := hdecided.tells hb (phase?_of_result? hx)
    cases hanswer
    have hall := hdecides fun d hd hc => .inl (hleft d hd hc)
    refine ⟨under, b, hb, hsame, ?_⟩
    cases rejected with
    | true =>
      obtain ⟨detail, reply, rfl⟩ := Result.eq_of_isRejection hrejected
      exact hall.retains
    | false => exact hall.drops hsettled fun _ _ he => by cases he ▸ hrejected
  refine ⟨past, a, ha, hregistry, hdecides hagrees, hdecides hrefuses, hdecides hhangs, ?_⟩
  obtain ⟨under, b, hb, h⟩ := exists_run_after hwaits
  obtain ⟨hunheard, hleft, hgoes, honly⟩ := of_decide_eq_true h
  obtain ⟨h, hs⟩ := exists_silent staleExit b
  obtain ⟨n, y, -, answer, -, hdecides⟩ := hdecided.comes hb hgoes hs.toIsFair (hs.kept 4)
  have honly : ∀ k, b.IsActive k → k = 4 := fun k hk => honly k (List.mem_range.2 hk.lt_length) hk
  have hlater := isLeftTo_of_isSilent hs honly ⟨0, .nfv, 1⟩ n
  have hall := hdecides fun d hd hc => .inl <| (List.mem_append.1 hd).elim
    (fun hd => hleft d hd hc) fun hd => hlater d hd hc
  refine ⟨under, b, hb, h, n, ?_, (hall.silent fun raw => ?_).2 hsettled⟩
  · rw [hall.displaced ⟨1, .vf, 1⟩ (by decide), hregistry]
    rfl
  · rw [← List.append_assoc]
    refine hs.not_hasHeard (not_hasHeard ?_ raw) n
    rw [log, List.filterMap_append, hearsNothing, List.all_append, Bool.and_eq_true]
    exact ⟨hbefore, hunheard⟩

end Service

/-! ## A member that nobody shuts -/

/-- The reason that there is no answer, if this is what an answer says. -/
def Result.silence? : Result → Option String
  | .reply (.error (.noReply _ _ reason)) => some reason
  | _ => none

namespace Service

open Broker

/-- A worker connects and is told to end, and somebody asks it for its status meanwhile. After that
there is one call more. -/
def closeGivenUp (last : Operation) : Nat → Service
  | 1 => .operation (.exit ⟨0, .nfv, 1⟩)
  | 2 => .operation (.execute ⟨0, .nfv, 1⟩ .status)
  | 3 => .operation last
  | l => .operation (.registerSecondary l)

/-- The worker agrees. That it will be shut is announced while it is being asked for its status, and
whoever has announced this goes away before it is done. -/
def shutNotDone : List (Option (Move Upshot)) :=
  nfvArrives ++
    ([none, some (.run 1), some (.serve 0), none, some (.run 2),
      some (.signal 0 (.bytes "[]".toUTF8.toList)), some (.receive 1 0), some (.serve 0),
      some (.run 1), some (.run 1), some (.abandon 1), some (.supersede 2 0), some (.run 2)] :
      List (Option (Move Upshot)))

/-- The member that should have been shut is told to end again, by nobody but this call, and while
nothing else goes on. There is no reply, and it is registered still, has not been retired, and has
its connection. -/
theorem exit_leaves_behind :
    ∃ past a under b,
      Run (fun _ => Starts (closeGivenUp (.exit ⟨0, .nfv, 1⟩))) (fresh 5) past a ∧
      Run (fun _ => Starts (closeGivenUp (.exit ⟨0, .nfv, 1⟩))) a under b ∧
      a.phase? 3 = none ∧ (∀ k, ¬a.IsActive k) ∧ IsLeftTo ⟨0, .nfv, 1⟩ 3 under ∧
      (result? 3 b).bind Result.silence? = some "connection replaced" ∧
      (∀ raw, ¬HasHeard under 3 raw) ∧ b.registry = [(1, ⟨0, .nfv, 1⟩)] ∧
      (b.member 0).retired = false ∧ (b.member 0).channel.isSome := by
  obtain ⟨past, a, ha, hnew, hidle, h⟩ :
      ∃ past a, Run (fun _ => Starts (closeGivenUp (.exit ⟨0, .nfv, 1⟩))) (fresh 5) past a ∧
        (a.phase? 3).isNone ∧ (∀ k ∈ List.range a.calls.length, ¬a.IsActive k) ∧
        (enact (closeGivenUp (.exit ⟨0, .nfv, 1⟩))
            [none, some (.run 3), some (.serve 0), some (.run 3), some (.serve 0), some (.run 3)]
            [] a).any fun s =>
          IsLeftTo ⟨0, .nfv, 1⟩ 3 s.1 ∧
            (result? 3 s.2).bind Result.silence? = some "connection replaced" ∧
            hearsNothing 3 (log s.1) ∧ s.2.registry = [(1, ⟨0, .nfv, 1⟩)] ∧
            (s.2.member 0).retired = false ∧ (s.2.member 0).channel.isSome :=
    exists_run_of_enact _ shutNotDone (by decide +kernel)
  obtain ⟨under, b, hb, h⟩ := exists_run_after h
  obtain ⟨hleft, hresult, hunheard, hrest⟩ := of_decide_eq_true h
  exact ⟨past, a, under, b, ha, hb, Option.isNone_iff_eq_none.1 hnew,
    fun k hk => hidle k (List.mem_range.2 hk.lt_length) hk, hleft, hresult,
    not_hasHeard hunheard, hrest⟩

end Service

end WorkerBroker
