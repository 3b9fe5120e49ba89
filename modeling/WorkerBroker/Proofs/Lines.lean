import WorkerBroker.Proofs.Addressees
import WorkerBroker.Proofs.Tokens
import WorkerBroker.Proofs.Traffic
/-!
# Lines that requests cause

Whatever stands in the path and in the body of a request, the line that a worker gets for it is that
of one command and cannot be taken for another (`Service.renders_of_writes`): cut at its spaces it is
the tokens of the command, and the texts that the request supplies are among them, each one whole.

Lines are what is seen to be written. That nothing else comes to stand on a connection is
`Broker.Run.sent`, of runs of any calls: a move adds to what was sent at most what is seen of it.
-/

namespace WorkerBroker

/-! ## What is sent and what is seen -/

namespace Broker

variable {ω : Type} {b b' : Broker ω}

/-- When no line is added on a connection, all that are have been seen. -/
theorem sublist_of_sent {l : Nat} (h : (b'.carried l).1 = (b.carried l).1) (seen : List String) :
    (b'.link l).sent.Sublist ((b.link l).sent ++ seen) := by
  change (b'.carried l).1.Sublist ((b.carried l).1 ++ seen)
  rw [h]
  exact List.sublist_append_left _ _

theorem sublist_of_carried {l : Nat} (h : b'.carried l = b.carried l) (seen : List String) :
    (b'.link l).sent.Sublist ((b.link l).sent ++ seen) :=
  sublist_of_sent (congrArg Prod.fst h) seen

/-- When a line is written on a connection, it is seen. -/
theorem sublist_of_write {k : Nat} {line : String}
    (h : ∀ l, b'.carried l = (b.changeLink k (Link.write line)).carried l) (t : Ticket) (l : Nat) :
    (b'.link l).sent.Sublist ((b.link l).sent ++ linesOn l [.wrote t k line]) := by
  by_cases hl : l = k
  · subst hl
    -- a connection that there is not takes nothing, whatever is seen of it
    by_cases hlt : l < b.links.length
    · change (b'.carried l).1.Sublist _
      rw [h, carried_write hlt, if_pos rfl]
      simp [linesOn, Event.link, Event.line?, carried]
    · refine sublist_of_carried ?_ _
      rw [h, carried, link_changeLink, if_neg fun e => hlt e.2]
      rfl
  · refine sublist_of_carried ?_ _
    rw [h, carried_changeLink_ne b _ hl]

/-- What arrives on a connection was not written there by the broker. -/
theorem sent_of_arrive (b : Broker ω) (k : Nat) (s : Signal) (l : Nat) :
    ((b.changeLink k (Link.arrive s)).carried l).1 = (b.carried l).1 := by
  rw [carried, link_changeLink]
  split
  · rw [Link.arrive.eq_def]
    split
    · rfl
    · cases s <;> rfl
  · rfl

/-- A call that goes on by itself may ask a fresh connection who it is. -/
theorem sent_stepProgram {c : Nat} {p : Program ω} (hp : b.phase? c = some (.running p))
    (l : Nat) :
    ((b.stepProgram c p).link l).sent.Sublist
      ((b.link l).sent ++ linesOn l (Deed.event? ⟨b, .run c⟩).toList) := by
  cases p with
  | done x => exact sublist_of_carried rfl _
  | act a next => exact sublist_of_carried (b.carried_act a l) _
  | wait w next =>
    cases w with
    | enter r turn => exact sublist_of_carried rfl _
    | converse commands => exact sublist_of_carried (b.carried_queueLegs c 0 commands l) _
    | greet k =>
      simp only [stepProgram, beginWait, Deed.event?, hp, writing]
      split
      · exact sublist_of_write (fun _ => rfl) _ l
      · exact sublist_of_carried rfl _

/-- A member that turns to a command may write it. -/
theorem sent_beginExchange {n : Nat} {t : Ticket} {rest : List Ticket} {command : Command}
    (hn : (b.member n).queue = t :: rest) (hq : b.queued? t = some command) (l : Nat) :
    ((b.beginExchange n t command).link l).sent.Sublist
      ((b.link l).sent ++ linesOn l (Deed.event? ⟨b, .serve n⟩).toList) := by
  rw [Deed.event?_serve hn, serving, hq, beginExchange]
  rcases (b.member n).channel with _ | ⟨k, g⟩
  · exact sublist_of_carried (carried_setLeg _ t _ l) _
  · by_cases hg : g = (b.member n).generation
    · simp only [hg, ne_eq, not_true_eq_false, if_false, if_true, writing]
      split
      · exact sublist_of_write (carried_setLeg _ t _) t l
      · exact sublist_of_carried (b.carried_settle n t _ l) _
    · simp only [hg, ne_eq, not_false_eq_true, if_true]
      exact sublist_of_carried (carried_setLeg _ t _ l) _

/-- A move adds to what was sent on a connection at most the line that is seen of it. -/
theorem sent_step {m : Move ω} (hm : b.step m = some b') (l : Nat) :
    (b'.link l).sent.Sublist ((b.link l).sent ++ linesOn l (Deed.event? ⟨b, m⟩).toList) := by
  cases makes_of_step hm with
  | runs hp => exact sent_stepProgram hp l
  | begins hn hp hl => exact sent_beginExchange hn (by simp only [queued?, hp, hl]) l
  | @turns n _ _ _ turn _ _ _ => exact sublist_of_carried (b.carried_take n turn l) _
  -- reading changes what is carried on a connection, but not what was sent there
  | receives ht hrec =>
    refine sublist_of_sent ?_ _
    rw [carried_settle]
    exact sent_of_receive? hrec l
  | hears hp hrec => exact sublist_of_sent (sent_of_receive? hrec l) _
  | supersedes _ _ _ => exact sublist_of_carried (carried_setLeg _ _ _ l) _
  | expires _ _ => exact sublist_of_carried (b.carried_settle _ _ _ l) _
  | accepts => exact sublist_of_carried (b.carried_accept l) _
  | signals k s => exact sublist_of_sent (b.sent_of_arrive k s l) _
  | @releases n _ _ => exact sublist_of_carried (b.carried_disconnect n l) _
  | starts _ _ _ | givesUp _ _ | abandons _ _ _ | passes _ => exact sublist_of_carried rfl _

/-- All that was sent on a connection in a run has been seen to be written. -/
theorem Run.sent {may : List (Deed ω) → Broker ω → Move ω → Prop} {past : List (Deed ω)}
    (hr : Run may b past b') (l : Nat) :
    (b'.link l).sent.Sublist ((b.link l).sent ++ linesOn l (log past)) := by
  induction hr with
  | nil => exact List.sublist_append_left _ _
  | @snoc past a a' m hr _ hm ih =>
    rw [log_snoc, linesOn_append, ← List.append_assoc]
    exact (sent_step hm l).trans (ih.append_right _)

end Broker

/-! ## What stands in a line -/

namespace Service

open Broker

variable {asked : Nat → Service} {timeout c : Nat} {past : List (Deed Upshot)} {b : Broker Upshot}
  {layout : List Socket} {request : Request}

/-- The line that is written for a request cannot be taken for another command than the one that is
carried out, and what the request supplies stands in it token by token. -/
theorem renders_of_wrote (hr : Run (fun _ => Starts asked) (fresh timeout) past b)
    (hc : asked c = .request layout request) {d : Deed Upshot} (hd : d ∈ past) {l : Nat}
    {line : String} (h : d.Writes c l line) :
    ∃ command, (∃ leg, d.before.queued? ⟨c, leg⟩ = some command) ∧ command.Renders line ∧
      request.supplied.Sublist command.tokens := by
  obtain ⟨t, rfl, hevent⟩ := h
  obtain ⟨r, command, commands, next, -, -, rfl, hq, hleg, hleft⟩ := of_wrote hr hd hevent hc
  obtain ⟨past₁, past₂, rfl, hr₁, -⟩ := hr.cut hd
  refine ⟨command, ⟨t.leg, hq⟩, ?_⟩
  rcases converses hr₁ hc hleft with ⟨hw, hall⟩ | ⟨r', command', rfl, htells, -⟩
  · -- a survey asks for the status, and nothing of the request goes into that
    have hstatus : command = .status := hall _ (List.mem_of_getElem? hleg)
    subst hstatus
    rw [Request.supplied_of_not_isForWorker hw]
    have hclean : Command.status.IsClean := Command.isClean_of_texts nofun nofun
    exact ⟨hclean.renders, List.nil_sublist _⟩
  · cases List.mem_singleton.1 (List.mem_of_getElem? hleg)
    exact ⟨htells.asks.isClean.renders, htells.asks.supplied⟩

/-- No text of a request gets a worker to read another command than the one that is carried out:
in every line that is written for the request only spaces and token characters stand, cut at its
spaces the line is the tokens of the command, but for one space at the end of a launch without
options of the application, and the texts that the request supplies are among the tokens, each of
them one. No line comes to a connection but those that are written so. -/
theorem renders_of_writes (hr : Run (fun _ => Starts asked) (fresh timeout) past b)
    (hc : asked c = .request layout request) :
    (∀ d ∈ past, ∀ l line, d.Writes c l line →
      ∃ command, (∃ leg, d.before.queued? ⟨c, leg⟩ = some command) ∧ command.Renders line ∧
        request.supplied.Sublist command.tokens) ∧
    ∀ l, (b.link l).sent.Sublist (linesOn l (log past)) := by
  constructor
  · intro d hd l line h
    exact renders_of_wrote hr hc hd h
  · intro l
    exact hr.sent l

/-- A request that tells the worker of kind `vf` and id 1 to start a component. -/
def startRequest : Request :=
  ⟨.post, .ofText "/v1/vfs/1/components",
    "\x7b\"name\": \"fwd0\", \"core\": 2, \"type\": \"forward\"\x7d".toUTF8.toList⟩

/-- The worker connects, and the request comes. -/
def starting : Nat → Service
  | 0 => .operation (.registerSecondary 0)
  | 1 => .request [] startRequest
  | _ => .primary

theorem renders_of_writes_when_starting :
    ∃ past b, Run (fun _ => Starts starting) (fresh 5) past b ∧
      ∃ command : Command, command.Renders "component start fwd0 2 forward" ∧
        "fwd0" ∈ command.tokens := by
  obtain ⟨past, b, hr, d, hd, hwrites⟩ :
      ∃ past b, Run (fun _ => Starts starting) (fresh 5) past b ∧
        ∃ d ∈ past, d.Writes 1 0 "component start fwd0 2 forward" :=
    exists_run_of_enact starting
      [some .accept, none, some (.run 0),
        some (.signal 0 (.bytes "[\"vf\",1]".toUTF8.toList)), some (.hear 0), some (.run 0),
        some (.run 0), some (.run 0), none, some (.run 1), some (.run 1), some (.serve 0)]
      (by decide +kernel)
  obtain ⟨command, -, hrenders, hsupplied⟩ :=
    (renders_of_writes hr (c := 1) rfl).1 d hd 0 _ hwrites
  have hname : startRequest.supplied = ["fwd0"] := by decide +kernel
  rw [hname] at hsupplied
  exact ⟨past, b, hr, command, hrenders, List.singleton_sublist.1 hsupplied⟩

end Service

end WorkerBroker
