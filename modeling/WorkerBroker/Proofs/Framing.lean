import WorkerBroker.Proofs.Log
import WorkerBroker.Proofs.Moves
import WorkerBroker.Scenario.Pipe
/-!
# Bytes and replies

Nothing on a connection marks where a reply ends, so a read takes all that has arrived. It does so
for every length, in one read more than there are full chunks (`Inbox.drain_eq`), and therefore the
replies that are read one after the other are what was written, from the front
(`PipeStep.replies_are_what_was_written`).

There is one exception. After a full chunk another one is looked for, and if it turns out there that
the connection was reset, what was read before is lost. So a reply that had arrived before the reset
is delivered unless it fills its chunks exactly (`Inbox.BreaksOff`); had the worker closed the
connection instead, it would be delivered all the same (`Broker.delivered_iff_of_reset`).
-/

namespace WorkerBroker

/-! ## Reading one reply -/

namespace Inbox

/-- The connection was reset after a number of full chunks, so that the read which looks for more
meets the reset. -/
def BreaksOff (i : Inbox) : Prop :=
  i.ending = .reset ∧ chunkSize ∣ i.queue.length

instance (i : Inbox) : Decidable i.BreaksOff :=
  inferInstanceAs (Decidable (_ ∧ _))

/-- Where chunks are taken until one is not full, all that has arrived is taken. One read more than
there are full chunks is enough. -/
theorem drain_eq {fuel : Nat} (taken : Bytes) (i : Inbox) (h : i.queue.length / chunkSize < fuel) :
    drain fuel taken i =
      if i.BreaksOff then (.reset, ⟨[], .ended⟩)
      else (.reply (taken.reverse ++ i.queue), ⟨[], i.ending⟩) := by
  induction fuel generalizing taken i with
  | zero => exact absurd h (Nat.not_lt_zero _)
  | succ fuel ih =>
    obtain ⟨queue, ending⟩ := i
    cases queue with
    | nil => cases ending <;> simp [drain, atEmpty, BreaksOff]
    | cons x xs =>
      simp only [drain]
      have hpos : 0 < (x :: xs).length := Nat.succ_pos _
      generalize x :: xs = q at h hpos
      split
      · -- a full chunk: the others are taken from what is left
        rename_i hfull
        have hle : chunkSize ≤ q.length := by
          rw [List.length_take] at hfull
          omega
        have hrest : (q.drop chunkSize).length / chunkSize < fuel := by
          simp only [List.length_drop, chunkSize] at h hle ⊢
          omega
        rw [ih _ ⟨_, ending⟩ hrest]
        have hiff : BreaksOff ⟨q.drop chunkSize, ending⟩ ↔ BreaksOff ⟨q, ending⟩ := by
          refine and_congr_right fun _ => ?_
          simp only [List.length_drop, chunkSize] at hle ⊢
          omega
        simp only [hiff]
        rw [List.reverse_append, List.reverse_reverse, List.append_assoc, List.take_append_drop]
      · rename_i hshort
        have hlt : q.length < chunkSize := by
          rw [List.length_take] at hshort
          omega
        have hno : ¬BreaksOff ⟨q, ending⟩ := fun hb => absurd (Nat.le_of_dvd hpos hb.2) (by omega)
        rw [if_neg hno, List.take_of_length_le (Nat.le_of_lt hlt),
          List.drop_eq_nil_of_le (Nat.le_of_lt hlt), List.reverse_append, List.reverse_reverse]

theorem readReply_nil {i : Inbox} (h : i.queue = []) : i.readReply = i.atEmpty := by
  rw [readReply, h]

/-- What has arrived is read as one reply, whatever its length, unless it breaks off. -/
theorem readReply_eq (i : Inbox) (h : i.queue ≠ []) :
    i.readReply =
      if i.BreaksOff then (.reset, ⟨[], .ended⟩) else (.reply i.queue, ⟨[], i.ending⟩) := by
  have hfuel : i.queue.length / chunkSize < i.queue.length + 1 :=
    Nat.lt_succ_of_le (Nat.div_le_self ..)
  rw [readReply]
  split
  · exact absurd ‹_› h
  · exact drain_eq [] i hfuel

end Inbox

namespace Link

/-- What an exchange ends with once something has arrived. -/
theorem receive?_eq (l : Link) (h : l.inbox.queue ≠ []) :
    l.receive? =
      if l.inbox.BreaksOff then some (.error .reset, { l with inbox := ⟨[], .ended⟩ })
      else some (.ok l.inbox.queue, { l with inbox := ⟨[], l.inbox.ending⟩ }) := by
  rw [receive?, l.inbox.readReply_eq h]
  by_cases hb : l.inbox.BreaksOff
  · simp only [if_pos hb]
  · simp only [if_neg hb]

/-- A reply is all that has arrived. -/
theorem receive?_ok {l rest : Link} {raw : Bytes} (h : l.receive? = some (.ok raw, rest)) :
    l.inbox.queue = raw ∧ raw ≠ [] ∧ rest.inbox.queue = [] := by
  by_cases hq : l.inbox.queue = []
  · -- on an empty queue there is no reply to be had
    simp only [receive?, Inbox.readReply, hq, Inbox.atEmpty] at h
    cases he : l.inbox.ending <;> rw [he] at h <;> cases h
  · rw [l.receive?_eq hq] at h
    split at h <;> cases h
    exact ⟨rfl, hq, rfl⟩

end Link

/-! ## Reading one reply after the other -/

/-- The bytes of a reply that was read. -/
def PipeReport.reply : PipeReport → Bytes
  | .received (.reply bytes) => bytes
  | _ => []

/-- What has been read of replies. -/
def readBy (reports : List PipeReport) : Bytes :=
  reports.flatMap PipeReport.reply

namespace PipeStep

/-- What is written on the far end until it closes or resets the connection. -/
def written : List PipeStep → Bytes
  | [] | .close :: _ | .reset :: _ => []
  | .write bytes :: steps => bytes ++ written steps
  | .command _ :: steps | .read :: steps => written steps

/-- What there will be to read on the near end if these steps are taken. -/
def coming (i : Inbox) (steps : List PipeStep) : Bytes :=
  i.queue ++ if i.ending = .stillOpen then written steps else []

variable {s : PipeStep} {steps : List PipeStep} {l : Link}

/-- The near end is not closed by a step. -/
theorem closed_take (s : PipeStep) (l : Link) : (s.take l).2.closed = l.closed := by
  cases s with
  | command line =>
    simp only [take]
    split <;> rfl
  | read => rfl
  | close | reset | write _ =>
    simp only [take, Link.arrive]
    split <;> rfl

theorem take_read (l : Link) :
    take l .read = (.received l.inbox.readReply.1, { l with inbox := l.inbox.readReply.2 }) := rfl

/-- Only the far end resets the connection. -/
theorem ending_take (h : l.inbox.ending ≠ .reset) (hs : s ≠ .reset) :
    (s.take l).2.inbox.ending ≠ .reset := by
  cases s with
  | command line =>
    simp only [take]
    split <;> exact h
  | read =>
    rw [take_read]
    by_cases hq : l.inbox.queue = []
    · rw [Inbox.readReply_nil hq, Inbox.atEmpty]
      split
      · exact h
      · exact h
      · exact nofun
    · rw [l.inbox.readReply_eq hq, if_neg fun hb => h hb.1]
      exact h
  | close =>
    simp only [take, Link.arrive]
    split
    · exact h
    · exact nofun
  | reset => exact absurd rfl hs
  | write bytes =>
    simp only [take, Link.arrive]
    split <;> exact h

/-- What there is to read is read now or later, unless the connection was reset: then the rest may
be lost. -/
theorem coming_take (s : PipeStep) (steps : List PipeStep) (hopen : l.closed = false) :
    coming l.inbox (s :: steps) = (s.take l).1.reply ++ coming (s.take l).2.inbox steps ∨
      l.inbox.ending = .reset ∧ (s.take l).1.reply = [] ∧
        coming (s.take l).2.inbox steps = [] := by
  cases s with
  | command line =>
    left
    simp only [take]
    split <;> rfl
  | read =>
    rw [take_read]
    by_cases hq : l.inbox.queue = []
    · left
      rw [Inbox.readReply_nil hq, Inbox.atEmpty]
      cases he : l.inbox.ending <;> simp [coming, written, PipeReport.reply, hq, he]
    · rw [l.inbox.readReply_eq hq]
      by_cases hb : l.inbox.BreaksOff
      · right
        rw [if_pos hb]
        exact ⟨hb.1, rfl, rfl⟩
      · left
        rw [if_neg hb]
        rfl
  | close | reset | write bytes =>
    left
    simp only [take, Link.arrive, hopen]
    cases he : l.inbox.ending <;> simp [coming, written, PipeReport.reply, Inbox.arrive, he]

/-- At the end of the stream there is nothing to read. -/
theorem coming_of_eof (steps : List PipeStep) (h : (s.take l).1 = .received .eof) :
    coming l.inbox (s :: steps) = [] := by
  cases s with
  | read =>
    rw [take_read] at h
    have heof : l.inbox.readReply.1 = .eof := PipeReport.received.inj h
    by_cases hq : l.inbox.queue = []
    · rw [Inbox.readReply_nil hq, Inbox.atEmpty] at heof
      cases he : l.inbox.ending <;> rw [he] at heof <;> cases heof
      simp [coming, hq, he]
    · rw [l.inbox.readReply_eq hq] at heof
      split at heof <;> cases heof
  | command line =>
    simp only [take] at h
    split at h <;> cases h
  | close | reset | write _ => cases h

theorem readBy_takeAll_cons (s : PipeStep) (steps : List PipeStep) (l : Link) :
    readBy (takeAll l (s :: steps)) =
      (s.take l).1.reply ++ readBy (takeAll (s.take l).2 steps) := rfl

/-- What is read is what there is to read, from the front. At the end of the stream nothing of it is
left, unless the connection was reset. -/
theorem readBy_takeAll (steps : List PipeStep) (l : Link) (hopen : l.closed = false) :
    ∃ left, coming l.inbox steps = readBy (takeAll l steps) ++ left ∧
      (l.inbox.ending ≠ .reset → .reset ∉ steps → .received .eof ∈ takeAll l steps →
        left = []) := by
  induction steps generalizing l with
  | nil => exact ⟨_, rfl, fun _ _ h => by cases h⟩
  | cons s steps ih =>
    obtain ⟨left, hleft, heof⟩ := ih (s.take l).2 ((closed_take s l).trans hopen)
    rcases coming_take s steps hopen with hcoming | ⟨hreset, hreply, hcoming⟩
    · refine ⟨left, ?_, fun he hs hmem => ?_⟩
      · rw [hcoming, hleft, readBy_takeAll_cons, List.append_assoc]
      · rcases List.mem_cons.1 hmem with hnow | hlater
        · rw [coming_of_eof steps hnow.symm, hleft] at hcoming
          exact (List.append_eq_nil_iff.1 (List.append_eq_nil_iff.1 hcoming.symm).2).2
        · exact heof (ending_take he fun e => hs (e ▸ List.mem_cons_self))
            (fun h => hs (List.mem_cons_of_mem _ h)) hlater
    · -- nothing is read any more
      rw [hcoming] at hleft
      refine ⟨coming l.inbox (s :: steps), ?_, fun he => absurd hreset he⟩
      rw [readBy_takeAll_cons, hreply, (List.append_eq_nil_iff.1 hleft.symm).1]
      rfl

/-- Nothing is lost, read twice or out of order:

* what has arrived is read as one reply, whatever its length, from a worker that may still send or
  has closed the connection; and there is an end to the chunks, after one read more than there are
  full ones;
* when nothing is left of what a worker sent that has closed the connection, that is the end;
* whatever is done on the two ends, the replies that are read, one after the other, are what was
  written, from the front, and all of it once the end of the stream has been read, if the connection
  was not reset. -/
theorem replies_are_what_was_written :
    (∀ (q : Bytes) (e : Ending), q ≠ [] → e ≠ .reset →
      (Inbox.mk q e).readReply = (.reply q, ⟨[], e⟩) ∧
        ∀ fuel, q.length / chunkSize < fuel →
          Inbox.drain fuel [] ⟨q, e⟩ = (.reply q, ⟨[], e⟩)) ∧
      (Inbox.mk [] .ended).readReply = (.eof, ⟨[], .ended⟩) ∧
      ∀ steps : List PipeStep, readBy (takeAll .fresh steps) <+: written steps ∧
        (.reset ∉ steps → .received .eof ∈ takeAll .fresh steps →
          readBy (takeAll .fresh steps) = written steps) := by
  refine ⟨fun q e hq he => ?_, rfl, fun steps => ?_⟩
  · have hno : ¬Inbox.BreaksOff ⟨q, e⟩ := fun hb => he hb.1
    refine ⟨?_, fun fuel hfuel => ?_⟩
    · rw [Inbox.readReply_eq ⟨q, e⟩ hq, if_neg hno]
    · rw [Inbox.drain_eq [] ⟨q, e⟩ hfuel, if_neg hno]
      rfl
  · obtain ⟨left, hleft, heof⟩ := readBy_takeAll steps .fresh rfl
    have hwritten : written steps = readBy (takeAll .fresh steps) ++ left := hleft
    refine ⟨⟨left, hwritten.symm⟩, fun hs hmem => ?_⟩
    rw [hwritten, heof nofun hs hmem, List.append_nil]

/-- A number of full chunks. -/
def chunks (n : Nat) : Bytes :=
  List.replicate (n * chunkSize) 0x78

theorem length_chunks (n : Nat) : (chunks n).length = n * chunkSize :=
  List.length_replicate

/-- A reply of two full chunks is read, one more byte is written, and the far end is closed. -/
def fullChunks : List PipeStep :=
  [.write (chunks 2), .read, .write [0x79], .close, .read, .read]

theorem replies_are_what_was_written_at_full_chunks :
    (chunks 2 ≠ [] ∧ Ending.stillOpen ≠ .reset ∧ (chunks 2).length / chunkSize < 3 ∧
      (Inbox.mk (chunks 2) .stillOpen).readReply = (.reply (chunks 2), .empty) ∧
      Inbox.drain 3 [] ⟨chunks 2, .stillOpen⟩ = (.reply (chunks 2), .empty)) ∧
      .reset ∉ fullChunks ∧ .received .eof ∈ takeAll .fresh fullChunks ∧
      readBy (takeAll .fresh fullChunks) = chunks 2 ++ [0x79] := by
  have hne : chunks 2 ≠ [] := List.ne_nil_of_length_pos (by rw [length_chunks]; decide)
  have hlt : (chunks 2).length / chunkSize < 3 := by rw [length_chunks]; decide
  have hmem : PipeReport.received .eof ∈ takeAll .fresh fullChunks := by decide +kernel
  have hreset : .reset ∉ fullChunks := by simp [fullChunks]
  obtain ⟨hread, -, hsteps⟩ := replies_are_what_was_written
  obtain ⟨hreply, hdrain⟩ := hread (chunks 2) .stillOpen hne nofun
  exact ⟨⟨hne, nofun, hlt, hreply, hdrain 3 hlt⟩, hreset, hmem, (hsteps fullChunks).2 hreset hmem⟩

/-! ## A reply before a reset -/

/-- A reply of one full chunk is lost if the far end resets the connection after it, though it is
read if the far end closes the connection. -/
theorem lost_at_full_chunk :
    takeAll .fresh [.write (chunks 1), .reset, .read] = [.written, .closed, .received .reset] ∧
      takeAll .fresh [.write (chunks 1), .close, .read] =
        [.written, .closed, .received (.reply (chunks 1))] := by
  have hne : chunks 1 ≠ [] := List.ne_nil_of_length_pos (by rw [length_chunks]; decide)
  have hreset : takeAll .fresh [.write (chunks 1), .reset, .read] =
      [.written, .closed, .received (Inbox.mk (chunks 1) .reset).readReply.1] := rfl
  have hclose : takeAll .fresh [.write (chunks 1), .close, .read] =
      [.written, .closed, .received (Inbox.mk (chunks 1) .ended).readReply.1] := rfl
  have hbreaks : Inbox.BreaksOff ⟨chunks 1, .reset⟩ := ⟨rfl, by rw [length_chunks]; decide⟩
  have hends : ¬Inbox.BreaksOff ⟨chunks 1, .ended⟩ := fun hb => by cases hb.1
  rw [hreset, hclose, Inbox.readReply_eq _ hne, Inbox.readReply_eq _ hne, if_pos hbreaks,
    if_neg hends]
  exact ⟨rfl, rfl⟩

end PipeStep

/-- A reply that had arrived before its connection was reset is delivered if and only if it is not a
number of full chunks; otherwise nothing of it is left, and the exchange ends without a reply. The
same reply before the end of the stream is delivered always. -/
theorem Broker.delivered_iff_of_reset {q : Bytes} (hq : q ≠ []) :
    ((Inbox.mk q .reset).readReply = (.reply q, ⟨[], .reset⟩) ↔ ¬chunkSize ∣ q.length) ∧
      (chunkSize ∣ q.length → (Inbox.mk q .reset).readReply = (.reset, ⟨[], .ended⟩)) ∧
      (Inbox.mk q .ended).readReply = (.reply q, ⟨[], .ended⟩) ∧
      ∀ {ω : Type} (b : Broker ω) (c leg n l d : Nat), b.talking? ⟨c, leg⟩ = some (n, l, d) →
        (b.link l).inbox = ⟨q, .reset⟩ →
        (∃ b', b.step (.receive c leg) = some b') ∧
          Deed.event? ⟨b, .receive c leg⟩ = some (.ended ⟨c, leg⟩ l
            (if chunkSize ∣ q.length then .error .reset else .ok q)) := by
  have hread := Inbox.readReply_eq ⟨q, .reset⟩ hq
  have hbreaks : Inbox.BreaksOff ⟨q, .reset⟩ ↔ chunkSize ∣ q.length := and_iff_right rfl
  simp only [hbreaks] at hread
  refine ⟨?_, fun hd => by rw [hread, if_pos hd], ?_, fun b c leg n l d ht hi => ?_⟩
  · rw [hread]
    split
    · rename_i hd
      exact iff_of_false nofun (not_not_intro hd)
    · rename_i hd
      exact iff_of_true rfl hd
  · rw [Inbox.readReply_eq ⟨q, .ended⟩ hq, if_neg fun hb => by cases hb.1]
  · have hrec := (b.link l).receive?_eq (by rw [hi]; exact hq)
    simp only [hi, hbreaks] at hrec
    rw [Deed.event?_receive ht, hearing]
    by_cases hd : chunkSize ∣ q.length
    · rw [if_pos hd] at hrec
      exact ⟨⟨_, (Makes.receives ht hrec).step⟩, by rw [hrec, if_pos hd]; rfl⟩
    · rw [if_neg hd] at hrec
      exact ⟨⟨_, (Makes.receives ht hrec).step⟩, by rw [hrec, if_neg hd]; rfl⟩

/-- The primary has answered a command with one full chunk and has reset its connection. -/
def resetAfterChunk : Broker Unit where
  timeout := 5
  clock := 0
  registry := [(primaryId, ⟨0, .primary, primaryId⟩)]
  members := [⟨.primary, primaryId, 0, some ⟨0, 0⟩, false, [⟨0, 0⟩]⟩]
  links := [⟨⟨PipeStep.chunks 1, .reset⟩, [Command.status.line], false⟩]
  calls := [⟨.conversing [⟨⟨0, .primary, primaryId⟩, .status, .talking 0 5⟩] fun _ => .done (),
    [⟨0, .primary, primaryId⟩], none⟩]
  held := []

theorem Broker.delivered_iff_of_reset_at_full_chunk :
    PipeStep.chunks 1 ≠ [] ∧ chunkSize ∣ (PipeStep.chunks 1).length ∧
      resetAfterChunk.talking? ⟨0, 0⟩ = some (0, 0, 5) ∧
      (resetAfterChunk.link 0).inbox = ⟨PipeStep.chunks 1, .reset⟩ ∧
      Deed.event? ⟨resetAfterChunk, .receive 0 0⟩ = some (.ended ⟨0, 0⟩ 0 (.error .reset)) := by
  have hd : chunkSize ∣ (PipeStep.chunks 1).length := by
    rw [PipeStep.length_chunks]
    decide
  have hne : PipeStep.chunks 1 ≠ [] :=
    List.ne_nil_of_length_pos (by rw [PipeStep.length_chunks]; decide)
  obtain ⟨-, -, -, hreceive⟩ := delivered_iff_of_reset hne
  obtain ⟨-, hevent⟩ := hreceive resetAfterChunk 0 0 0 0 5 rfl rfl
  rw [if_pos hd] at hevent
  exact ⟨hne, hd, rfl, rfl, hevent⟩

end WorkerBroker
