import Mathlib.Data.List.Infix
import WorkerBroker.Proofs.Ledger
import WorkerBroker.Proofs.Progress
/-!
# Requests that are given up

Whoever has asked for something may go away at any time. His command may be on its way then. Nobody
waits for the reply any more, but the connection stays where it is, as if nothing had been written,
and the next command is written on it. What is read then is whatever the worker has answered since,
and that is the late answer first.

Even so the log of every run is coherent (`Proofs.Ledger`) if workers answer each line once, and the
account of a connection is where the connection is (`Ledger.Fits`). This gives
`Broker.own_answer_unless_given_up`: how the replies to commands are made of the answers of workers,
and that a command gets the answer to its own line unless somebody who wrote before on the same
connection has been given up. Right after that, it gets another's.
-/

namespace WorkerBroker

open Broker

/-- Workers answer each line once and say nothing else. Whoever waits may be given up. -/
def Obliging (past : List (Deed Result)) : Move Result → Prop
  | .signal l (.bytes _) => (answersOn l (log past)).length < (linesOn l (log past)).length
  | _ => True

instance (past : List (Deed Result)) (m : Move Result) : Decidable (Obliging past m) :=
  match m with
  | .signal _ (.bytes _) => inferInstanceAs (Decidable (_ < _))
  | .signal _ .ended | .signal _ .reset | .start _ _ _ | .run _ | .serve _ | .receive _ _
  | .supersede _ _ | .expire _ _ | .hear _ | .giveUp _ | .abandon _ | .accept | .release _
  | .pass _ => inferInstanceAs (Decidable True)

/-- Whoever asked for the call has gone away. -/
def Broker.GivenUp {ω : Type} (b : Broker ω) (c : Nat) : Prop :=
  b.phase? c = some .abandoned

instance {ω : Type} (b : Broker ω) (c : Nat) : Decidable (b.GivenUp c) :=
  decidable_of_iff ((b.phase? c).any fun p => p.left?.isNone) <| by
    simp [GivenUp, Option.any_eq_true, Phase.left?_eq_none]

/-! ## Where connections are -/

namespace Ledger

/-- The account of a connection is where the connection is. -/
structure Fits (asked : Nat → Operation) (b : Broker Result) (β : Nat → Burden) (l : Nat)
    (k : Ledger) : Prop where
  speaks : ∀ t, b.speaks? t = some l → k.waiting = some t ∧ k.failed = false
  /-- whoever waits speaks, or has been given up -/
  waits : ∀ t, k.waiting = some t → b.speaks? t = some l ∨ b.GivenUp t.call
  spent : k.failed = true → b.standing.Spent asked β l
  unread : k.failed = false → (b.carried l).2 = k.unread.flatten

variable {asked : Nat → Operation} {b b' : Broker Result} {β β' : Nat → Burden} {l : Nat}
  {k : Ledger} {log : List Event}

theorem Fits.congr (h : k.Fits asked b β l)
    (hs : ∀ u, b'.speaks? u = some l → b.speaks? u = some l)
    (hs' : ∀ u, b.speaks? u = some l → b'.speaks? u = some l ∨ b'.GivenUp u.call)
    (hl : (b'.carried l).2 = (b.carried l).2) (hgone : ∀ c, b.GivenUp c → b'.GivenUp c)
    (hspent : b.standing.Spent asked β l → b'.standing.Spent asked β' l) :
    k.Fits asked b' β' l where
  speaks t ht := h.speaks t (hs t ht)
  waits t ht := (h.waits t ht).elim (hs' t) fun hg => .inr (hgone _ hg)
  spent hfailed := hspent (h.spent hfailed)
  unread hfailed := hl.trans (h.unread hfailed)

/-- What can be seen of a move could be expected. -/
theorem Fits.allows {e : Event} (h : (ledger e.link log).Fits asked b β e.link)
    (hc : Course asked b β) (ht : Traffic asked b β b' β' (some e))
    (hanswer : ∀ l bytes, e = .answered l bytes →
      (answersOn l log).length < (linesOn l log).length) :
    (ledger e.link log).Allows b.GivenUp e := by
  generalize he : some e = o at ht
  cases ht with
  | quiet => cases he
  | wrote t l line hw ht =>
    cases he
    refine ⟨Bool.eq_false_iff.2 fun hfailed => hw.not_spent hc.held (h.spent hfailed),
      fun u hu => ?_⟩
    -- whoever speaks has the connection, and that is somebody else who does not speak yet
    refine (h.waits u hu).resolve_left fun hspeaks => ?_
    obtain rfl := (hc.uses hspeaks).ext hw.uses hc.held
    cases ht.symm.trans hspeaks
  | answered l bytes =>
    cases he
    change (ledger l log).answers.length < (ledger l log).writers.length
    rw [answers_ledger, length_writers_ledger]
    exact hanswer l bytes rfl
  | ended t l o ht hs hl hok herr =>
    cases he
    cases o with
    | error s => trivial
    | ok raw =>
      rcases ht with ht | ⟨-, -, s, hs⟩
      · obtain ⟨hw, hfailed⟩ := h.speaks t ht
        obtain ⟨hraw, hne, -⟩ := hok raw rfl
        exact ⟨hw, hraw.symm.trans (h.unread hfailed), hne⟩
      · cases hs

/-- A line is written: its writer waits. -/
theorem Fits.wrote {t : Ticket} {line : String} (h : k.Fits asked b β l) (hc : Course asked b β)
    (hw : b.MayWrite β t l) (ht : b.speaks? t = none)
    (hs : ∀ u, b'.speaks? u = if u = t then some l else b.speaks? u)
    (hl : (b'.carried l).2 = (b.carried l).2) :
    (k.on (.wrote t l line)).Fits asked b' β' l := by
  have hfailed : k.failed = false :=
    Bool.eq_false_iff.2 fun hfailed => hw.not_spent hc.held (h.spent hfailed)
  refine ⟨fun u hu => ⟨?_, hfailed⟩, fun u hu => .inl ?_, fun e => ?_, fun _ => ?_⟩
  · rw [hs] at hu
    split at hu
    · rename_i hut
      rw [hut]
      rfl
    · obtain rfl := (hc.uses hu).ext hw.uses hc.held
      cases ht.symm.trans hu
  · obtain rfl : t = u := Option.some.inj hu
    rw [hs, if_pos rfl]
  · cases hfailed.symm.trans e
  · exact hl.trans (h.unread hfailed)

/-- An answer arrives behind those that have not been read. -/
theorem Fits.answered {bytes : Bytes} (h : k.Fits asked b β l)
    (hk : k.heard ≤ k.answers.length) (hs : ∀ u, b'.speaks? u = b.speaks? u)
    (hl : (b'.carried l).2 = (b.carried l).2 ++ bytes)
    (hgone : ∀ c, b.GivenUp c → b'.GivenUp c)
    (hspent : b.standing.Spent asked β l → b'.standing.Spent asked β' l) :
    (k.on (.answered l bytes)).Fits asked b' β' l where
  speaks t ht := h.speaks t ((hs t).symm.trans ht)
  waits t ht := (h.waits t ht).imp (hs t).trans (hgone _)
  spent hfailed := hspent (h.spent hfailed)
  unread hfailed := by
    rw [hl, h.unread hfailed]
    simp only [Ledger.unread, on, List.drop_append_of_le_length hk, List.flatten_append,
      List.flatten_singleton]

/-- Nobody waits any more, and nothing is unread if there was a reply. -/
theorem Fits.ended {t : Ticket} {o : Outcome} (h : k.Fits asked b β l) (hc : Course asked b β)
    (ht : b.speaks? t = some l ∨ b.speaks? t = none ∧ b.MayWrite β t l)
    (hs : ∀ u, b'.speaks? u = if u = t then none else b.speaks? u)
    (hok : ∀ raw, o = .ok raw → (b'.carried l).2 = [])
    (herr : ∀ s, o = .error s → b'.standing.Spent asked β' l)
    (hspent : b.standing.Spent asked β l → b'.standing.Spent asked β' l) :
    (k.on (.ended t l o)).Fits asked b' β' l := by
  have huses : b.Uses β t l := ht.elim hc.uses fun ht => ht.2.uses
  have hsilent : ∀ u, b'.speaks? u ≠ some l :=
    Wire.silent_of_ended (fun u hu => (hc.uses hu).ext huses hc.held) hs
  cases o with
  | ok raw =>
    refine ⟨fun u hu => absurd hu (hsilent u), fun u hu => ?_,
      fun hfailed => hspent (h.spent hfailed), fun _ => ?_⟩
    · cases hu
    · rw [hok raw rfl]
      simp only [Ledger.unread, on, List.drop_length, List.flatten_nil]
  | error s =>
    refine ⟨fun u hu => absurd hu (hsilent u), fun u hu => ?_, fun _ => herr s rfl, fun e => ?_⟩
    · cases hu
    · cases e

/-- The account follows what can be seen of a move, and is where the connection is then. -/
theorem Fits.step {e : Option Event} (h : (ledger l log).Fits asked b β l)
    (hk : (ledger l log).heard ≤ (ledger l log).answers.length) (hc : Course asked b β)
    (ht : Traffic asked b β b' β' e) (hgone : ∀ c, b.GivenUp c → b'.GivenUp c)
    (hspent : b.standing.Spent asked β l → b'.standing.Spent asked β' l) :
    (ledger l (log ++ e.toList)).Fits asked b' β' l := by
  by_cases he : ∃ x ∈ e, x.link = l
  · obtain ⟨x, hx, rfl⟩ := he
    obtain rfl := hx
    rw [Option.toList_some, ledger_snoc, if_pos rfl]
    generalize hq : some x = q at ht
    cases ht with
    | quiet => cases hq
    | wrote t l line hw ht hs hl =>
      cases hq
      exact h.wrote (l := l) hc hw ht hs (by rw [hl, if_pos rfl])
    | answered l bytes hs hl =>
      cases hq
      exact h.answered (l := l) hk hs (by rw [hl, if_pos rfl]) hgone hspent
    | ended t l o ht hs hl hok herr =>
      cases hq
      exact h.ended (l := l) hc (ht.imp_right fun ht => ⟨ht.1, ht.2.1⟩) hs
        (fun raw hr => (hok raw hr).2.2) herr hspent
  · obtain ⟨hs, hl⟩ := ht.elsewhere fun x hx hxl => he ⟨x, hx, hxl⟩
    have hledger : ledger l (log ++ e.toList) = ledger l log := by
      rcases e with _ | x
      · rw [Option.toList_none, List.append_nil]
      · rw [Option.toList_some, ledger_snoc, if_neg fun hxl => he ⟨x, rfl, hxl⟩]
    rw [hledger]
    exact h.congr (fun u => (hs u).1) (fun u hu => .inl ((hs u).2 hu)) (by rw [hl]) hgone hspent

end Ledger

/-! ## Runs -/

/-- The log is coherent, and the account of each connection is where the connection is. -/
structure Accounted (asked : Nat → Operation) (past : List (Deed Result)) (b : Broker Result)
    (β : Nat → Burden) : Prop where
  dated : b.standing.Dated
  lines : ∀ l, (b.carried l).1 = linesOn l (log past)
  coherent : Coherent b.GivenUp (log past)
  fits : ∀ l, (ledger l (log past)).Fits asked b β l

section

variable {asked : Nat → Operation} {b b' : Broker Result} {m : Move Result} {β β' : Nat → Burden}
  {past : List (Deed Result)} {c : Nat}

/-- Nothing has been seen. -/
theorem Accounted.fresh (asked : Nat → Operation) (timeout : Nat) :
    Accounted asked [] (Broker.fresh timeout) fun _ => .nothing where
  dated n ch h := by cases h
  lines _ := rfl
  coherent := .nil
  fits _ := ⟨nofun, nofun, nofun, fun _ => rfl⟩

/-- Whoever goes away leaves his line and its answer behind. -/
theorem Accounted.abandon (h : Accounted asked past b β)
    (hm : Stride asked b (.abandon c) β b' β') :
    Accounted asked (past ++ [⟨b, .abandon c⟩]) b' β' := by
  have hgone : ∀ c, b.GivenUp c → b'.GivenUp c := fun c => abandoned_step hm.step
  have hlog : log (past ++ [⟨b, .abandon c⟩]) = log past := by
    rw [log_snoc]
    exact List.append_nil _
  obtain ⟨hspeaks, hcarried⟩ : (∀ t, b'.speaks? t = if t.call = c then none else b.speaks? t) ∧
      ∀ l, b'.carried l = b.carried l := by
    cases makes_of_step hm.step with
    | abandons hcall _ _ =>
      exact ⟨speaks?_setPhase (a := b.withdraw c) (fun _ => rfl) (by rw [phase?, hcall]; rfl),
        fun _ => rfl⟩
  refine ⟨hm.effect.dated h.dated, fun l => ?_, ?_, fun l => ?_⟩
  · rw [hcarried, hlog]
    exact h.lines l
  · rw [hlog]
    exact h.coherent.mono hgone
  · rw [hlog]
    refine (h.fits l).congr (fun u hu => ?_) (fun u hu => ?_) (by rw [hcarried]) hgone
      (hm.effect.spent hm.before)
    · rw [hspeaks] at hu
      split at hu
      · cases hu
      · exact hu
    · by_cases huc : u.call = c
      · exact .inr (huc ▸ phase?_of_abandon hm.step)
      · exact .inl (by rw [hspeaks, if_neg huc, hu])

/-- All remains accounted for, whoever goes away. -/
theorem Accounted.step (h : Accounted asked past b β) (hm : Stride asked b m β b' β')
    (ho : Obliging past m) : Accounted asked (past ++ [⟨b, m⟩]) b' β' := by
  by_cases ha : ∃ c, m = .abandon c
  · obtain ⟨c, rfl⟩ := ha
    exact h.abandon hm
  have ht := hm.traffic h.dated (not_exists.1 ha)
  have hgone : ∀ c, b.GivenUp c → b'.GivenUp c := fun c => abandoned_step hm.step
  refine ⟨hm.effect.dated h.dated, fun l => ?_, ?_, fun l => ?_⟩ <;> rw [log_snoc]
  · rw [linesOn_append, ← h.lines]
    exact ht.lines l
  · refine .mono ?_ hgone
    rcases he : Deed.event? ⟨b, m⟩ with _ | e
    · rw [Option.toList_none, List.append_nil]
      exact h.coherent
    · refine h.coherent.snoc ((h.fits e.link).allows hm.before (he ▸ ht) ?_)
      rintro l bytes rfl
      obtain rfl : m = .signal l (.bytes bytes) := Deed.signal_of_answered he
      exact ho
  · exact (h.fits l).step (h.coherent.balanced l).heard_le hm.before ht hgone
      (hm.effect.spent hm.before)

/-- Every call that sends one command is on its way from the start to its result, or has been given
up. -/
def AllToldOrGone (asked : Nat → Operation) (past : List (Deed Result)) (b : Broker Result) :
    Prop :=
  ∀ c r command, asked c = .execute r command → b.GivenUp c ∨
    (b.phase? c = none ∧ eventsOf ⟨c, 0⟩ (log past) = []) ∨
      ∃ p, b.phase? c = some p ∧ Told r command ⟨c, 0⟩ (eventsOf ⟨c, 0⟩ (log past)) p

theorem AllToldOrGone.step (h : AllToldOrGone asked past b) (hs : Operation.Starts asked b m)
    (hm : b.step m = some b') : AllToldOrGone asked (past ++ [⟨b, m⟩]) b' := by
  intro c r command hasked
  rcases h c r command hasked with hgone | htold
  · exact .inl (abandoned_step hm hgone)
  · by_cases ha : m = .abandon c
    · subst ha
      exact .inl (phase?_of_abandon hm)
    · exact .inr (told_step hasked htold hs hm ha)

/-- In every run in which workers answer each line once and say nothing else, whoever is given up, a
command that comes to a value, or to an error that the worker reported, comes to what was read on
the connection it was written on:

* that is made of whole answers, in order, from the first that had not been read when the command
  was written;
* it is the answer to the line of the command itself, unless somebody who wrote on this connection
  before has been given up;
* whoever still waited there when the command was written has been given up, and then what was read
  begins with the answer to an earlier line.

And the lines that are seen on a connection are those that were written on it. -/
theorem Broker.own_answer_unless_given_up {timeout : Nat}
    (hr : Run (fun past b m => Operation.Starts asked b m ∧ Obliging past m)
      (fresh timeout) past b) :
    (∀ c r command x, asked c = .execute r command → b.phase? c = some (.finished (.reply x)) →
      IsAnswer x → ∃ l pre post raw, log past = pre ++ .wrote ⟨c, 0⟩ l command.line :: post ∧
        x = decodeReply raw ∧
        (∃ upTo, (ledger l pre).heard < upTo ∧ upTo ≤ (linesOn l pre).length + 1 ∧
          raw = ((answersOn l (log past)).extract (ledger l pre).heard upTo).flatten) ∧
        ((answersOn l (log past))[(linesOn l pre).length]? = some raw ∨
          ∃ u line, .wrote u l line ∈ pre ∧ b.GivenUp u.call) ∧
        ∀ u, (ledger l pre).waiting = some u → b.GivenUp u.call ∧
          ∃ i earlier, i < (linesOn l pre).length ∧
            (answersOn l (log past))[i]? = some earlier ∧ earlier <+: raw) ∧
    ∀ l, (b.link l).sent = linesOn l (log past) := by
  obtain ⟨β, -, hacc, htold⟩ := hr.course
    (P := fun past b β => Accounted asked past b β ∧ AllToldOrGone asked past b)
    (fun _ _ _ h => h.1) (.fresh asked timeout)
    ⟨.fresh asked timeout, fun _ _ _ _ => .inr (.inl ⟨rfl, rfl⟩)⟩
    fun past b m β b' β' h ha hm => ⟨h.1.step hm ha.2, h.2.step ha.1 hm.step⟩
  refine ⟨fun c r command x hasked hx hanswer => ?_, hacc.lines⟩
  rcases htold c r command hasked with hgone | ⟨hnone, -⟩ | ⟨p, hp, ht⟩
  · cases hgone.symm.trans hx
  · cases hnone.symm.trans hx
  · obtain rfl := Option.some.inj (hp.symm.trans hx)
    generalize hev : eventsOf ⟨c, 0⟩ (log past) = events at ht
    cases ht with
    | ended y hy hread =>
      rcases hy with hy | hy <;> cases hy
      obtain ⟨l, raw, rfl, rfl⟩ := hread hanswer
      obtain ⟨pre, mid, post, hlog, hmid⟩ := exists_of_eventsOf hev
      obtain ⟨upTo, hlt, hle, -, hraw⟩ := hacc.coherent.reply_of_exchange hlog hmid
      exact ⟨l, pre, _, raw, hlog, rfl, ⟨upTo, hlt, hle, hraw⟩,
        hacc.coherent.answer_or_gone hlog hmid,
        fun u hu => hacc.coherent.answer_of_waiting hlog hmid hu⟩

end

/-! ## A request that is given up -/

/-- Three commands are sent to the primary. -/
def primaryAsked : Nat → Operation
  | 0 => .registerPrimary 0
  | 2 => .execute ⟨0, .primary, primaryId⟩ .clear
  | _ => .execute ⟨0, .primary, primaryId⟩ .status

/-- Whoever asked for the second goes away before its answer comes. The third is written then, and
the answer to the second is read. -/
def primaryAsked.script : List Cue :=
  [.move .accept, .call, .move (.run 0), .move (.run 0), .move (.run 0),
    .call, .move (.run 1), .move (.serve 0),
    .move (.signal 0 (.bytes "[1]".toUTF8.toList)), .move (.receive 1 0), .move (.run 1),
    -- the second command is written and given up
    .call, .move (.run 2), .move (.serve 0), .move (.abandon 2),
    -- the third command
    .call, .move (.run 3), .move (.serve 0),
    .move (.signal 0 (.bytes "[2]".toUTF8.toList)), .move (.receive 3 0), .move (.run 3),
    .move (.signal 0 (.bytes "[3]".toUTF8.toList))]

/-- The run that is written down. When the third line is written, only the first has a reply. -/
theorem exists_run_primaryAsked :
    ∃ past b value, Run (fun past b m => Operation.Starts primaryAsked b m ∧ Obliging past m)
        (fresh 5) past b ∧
      b.GivenUp 2 ∧ b.phase? 3 = some (.finished (.reply (.ok value))) ∧ value.text = "[2]" ∧
      linesOn 0 (log past) = [Command.status.line, Command.clear.line, Command.status.line] ∧
      answersOn 0 (log past) =
        ["[1]".toUTF8.toList, "[2]".toUTF8.toList, "[3]".toUTF8.toList] ∧
      ∀ l pre post line, log past = pre ++ .wrote ⟨3, 0⟩ l line :: post →
        l = 0 ∧ (linesOn l pre).length = 2 ∧ (ledger l pre).heard = 1 := by
  obtain ⟨past, b, hr, hgone, hlink, hwriters, hlines, hanswers, hheard, hreply⟩ :
      ∃ past b, Run (fun past b m => Operation.Starts primaryAsked b m ∧ Obliging past m)
          (fresh 5) past b ∧
        b.GivenUp 2 ∧ (∀ e ∈ log past, e.link = 0) ∧
        (ledger 0 (log past)).writers = [⟨1, 0⟩, ⟨2, 0⟩, ⟨3, 0⟩] ∧
        linesOn 0 (log past) = [Command.status.line, Command.clear.line, Command.status.line] ∧
        answersOn 0 (log past) =
          ["[1]".toUTF8.toList, "[2]".toUTF8.toList, "[3]".toUTF8.toList] ∧
        (∀ pre ∈ (log past).inits, (ledger 0 pre).writers.length = 2 →
          (ledger 0 pre).heard = 1) ∧
        ((b.result? 3).bind Result.value?).any fun value => value.text = "[2]" :=
    exists_run_of_play Obliging primaryAsked.script (fun _ _ _ h h' => ⟨h, h'⟩) (by decide +kernel)
  obtain ⟨value, hvalue, htext⟩ := (Option.any_eq_true _ _).1 hreply
  obtain ⟨x, hx, hxv⟩ := Option.bind_eq_some_iff.1 hvalue
  obtain rfl := Result.eq_of_value? hxv
  refine ⟨past, b, value, hr, hgone, phase?_of_result? hx, of_decide_eq_true htext, hlines,
    hanswers, fun l pre post line hlog => ?_⟩
  obtain rfl : l = 0 := hlink (.wrote ⟨3, 0⟩ l line) (by rw [hlog]; simp)
  have hwriter := writer_of_line hlog
  rw [hwriters] at hwriter
  have hlength : (linesOn 0 pre).length = 2 := by
    generalize (linesOn 0 pre).length = n at hwriter
    match n with
    | 0 | 1 | n + 3 => cases hwriter
    | 2 => rfl
  refine ⟨rfl, hlength, hheard pre ?_ ?_⟩
  · rw [List.mem_inits, hlog]
    exact List.prefix_append ..
  · rw [length_writers_ledger, hlength]

/-- What the third command comes to begins with the answer to the second. -/
theorem Broker.own_answer_unless_given_up_of_three :
    ∃ past b raw, Run (fun past b m => Operation.Starts primaryAsked b m ∧ Obliging past m)
        (fresh 5) past b ∧
      b.GivenUp 2 ∧
      (b.link 0).sent = [Command.status.line, Command.clear.line, Command.status.line] ∧
      b.phase? 3 = some (.finished (.reply (decodeReply raw))) ∧
      "[2]".toUTF8.toList <+: raw := by
  obtain ⟨past, b, value, hr, hgone, hx, -, hlines, hanswers, hat⟩ := exists_run_primaryAsked
  obtain ⟨hall, hsent⟩ := own_answer_unless_given_up hr
  obtain ⟨l, pre, post, raw, hlog, hreply, ⟨upTo, hlt, hle, hraw⟩, -⟩ := hall 3 _ _ _ rfl hx trivial
  obtain ⟨rfl, hlength, hheard⟩ := hat l pre post _ hlog
  rw [hheard] at hlt hraw
  rw [hlength] at hle
  rw [hanswers] at hraw
  refine ⟨past, b, raw, hr, hgone, (hsent 0).trans hlines, by rw [hx, hreply], ?_⟩
  rw [hraw]
  obtain rfl | rfl : upTo = 2 ∨ upTo = 3 := by omega
  · decide +kernel
  · decide +kernel

/-- So it does not come to the answer to its own line. -/
theorem Broker.reads_answer_of_departed :
    ∃ past b value, Run (fun past b m => Operation.Starts primaryAsked b m ∧ Obliging past m)
        (fresh 5) past b ∧
      b.phase? 3 = some (.finished (.reply (.ok value))) ∧
      ¬∃ l pre post raw, log past = pre ++ .wrote ⟨3, 0⟩ l Command.status.line :: post ∧
        (answersOn l (log past))[(linesOn l pre).length]? = some raw ∧
        .ok value = decodeReply raw := by
  obtain ⟨past, b, value, hr, -, hx, htext, -, hanswers, hat⟩ := exists_run_primaryAsked
  refine ⟨past, b, value, hr, hx, ?_⟩
  rintro ⟨l, pre, post, raw, hlog, hraw, hreply⟩
  obtain ⟨rfl, hlength, -⟩ := hat l pre post _ hlog
  rw [hanswers, hlength] at hraw
  cases hraw
  have hthird : (decodeReply "[3]".toUTF8.toList).toOption.map Json.text = some "[3]" := by
    decide +kernel
  rw [← hreply] at hthird
  exact absurd (htext.symm.trans (Option.some.inj hthird)) (by decide)

end WorkerBroker
