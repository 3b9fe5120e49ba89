import WorkerBroker.Proofs.Exchange
import WorkerBroker.Proofs.Reconnection
/-!
# Exits of workers that reconnect

A worker is told to end, and meanwhile it connects anew. If it does not answer on its old
connection, the member is retired only if it has no connection, so the new one is safe. If it
answers that it has ended, the member is shut whatever connection it has by then
(`Program.exit`). So the new connection is lost just when it was offered to the member before the
member was shut; `Broker.serves_iff_of_exit` says that there is no other way to lose it.
-/

namespace WorkerBroker

open Broker

variable {asked : Nat → Operation} {b : Broker Result} {β : Nat → Burden} {e : Nat} {p : Ref}

/-- An exit that is over has shut and struck off its member if the worker did as it was told, and
has left nothing undone otherwise. -/
theorem Broker.CallsOk.burden_of_exit {y : Result} (hc : b.CallsOk asked β)
    (he : asked e = .exit p) (hy : b.phase? e = some (.finished y)) :
    β e = .nothing ∧ y.isValue = false ∨ β e = .closed p true ∧ y.isValue = true := by
  have hends := hc.ends_of_finished hy
  rw [he] at hends
  rcases hends with hleaves | h | ⟨r, hr, hv⟩
  · cases hleaves
  · exact .inl h
  · have hp := (hc.suits e).closed r true hr
    rw [he] at hp
    cases hp
    exact .inr ⟨hr, hv⟩

/-- The connection of a member is not closed. -/
theorem Broker.Serves.not_isClosed {who : Identity} {link : Nat} {r : Ref}
    (h : b.Serves who link r) (hh : b.standing.Held β) : ¬b.standing.IsClosed link := by
  obtain ⟨-, -, -, g, hch⟩ := h
  rw [← channel_standing] at hch
  intro hclosed
  cases hclosed.symm.trans (hh.channel _ _ hch)

/-- A worker has said who it is, a member of its kind and id that was there before is told to end,
and nobody else registers, ends or drops a worker of the id. Once both are over, the worker has what
it connected for, unless the member has ended as it was told and was offered the connection while it
was not retired. In that case the connection is closed. -/
theorem Broker.serves_iff_of_exit {m : Move Result} {timeout c link : Nat} {who : Identity}
    {past₁ past₂ : List (Deed Result)} {b₁ : Broker Result} {x y : Result}
    (hr : Run (fun _ => Operation.Starts asked) (fresh timeout) (past₁ ++ ⟨b₁, m⟩ :: past₂) b)
    (hid : b₁.Identifies asked c link who m) (he : asked e = .exit p)
    (hp : p.number < b₁.members.length)
    (halone : ∀ d ∈ past₂, ∀ k, d.before.IsActive k → k ≠ c →
      Engaged asked (past₁ ++ ⟨b₁, m⟩ :: past₂) who.2 k → k = e)
    (hfail : ∀ t s, .ended t link (.error s) ∉ log past₂)
    (hx : b.phase? c = some (.finished x)) (hy : b.phase? e = some (.finished y)) :
    ((∃ r, b.Serves who link r) ↔ ¬(y.isValue ∧ WasOffered past₂ c link p)) ∧
      (b.standing.IsClosed link ↔ y.isValue ∧ WasOffered past₂ c link p) := by
  obtain ⟨β, hc, h⟩ := hr.placed (· = e) hid (fun k hk => ⟨p, hk ▸ he, hp⟩) halone hfail
  have hburden := hc.calls.burden_of_exit he hy
  have hclosed : ∀ r, b.Serves who link r → ¬b.standing.IsClosed link :=
    fun r hr => hr.not_isClosed hc.held
  cases h.settled hc.calls hx with
  | kept r ho hreg hwho hret hch =>
    have hserves : b.Serves who link r := by
      subst hwho
      exact ⟨hreg, rfl, by rwa [← retired_standing], by simpa only [← channel_standing] using hch⟩
    have hnot : ¬(y.isValue ∧ WasOffered past₂ c link p) := by
      rintro ⟨hv, hoff⟩
      rcases ho with ⟨-, hno⟩ | ⟨-, huniq⟩
      · exact hno p hoff
      · -- the member that has the connection is the one that was shut
        obtain rfl := huniq p hoff
        rcases hburden with ⟨-, hv'⟩ | ⟨hβ, -⟩
        · rw [hv'] at hv
          cases hv
        · have htrue := hc.sound.burdens e
          rw [hβ] at htrue
          cases hret.symm.trans htrue.2
    exact ⟨iff_of_true ⟨r, hserves⟩ hnot, iff_of_false (hclosed r hserves) hnot⟩
  | lost r ho hlost hk =>
    obtain ⟨k, rfl, hk⟩ := hk
    have hlicence : (asked k).licence.closes = some r := by
      rcases hk with hk | ⟨struck, hk⟩
      · exact (hc.calls.suits k).closing r hk
      · exact (hc.calls.suits k).closed r struck hk
    rw [he] at hlicence
    cases hlicence
    have hv : y.isValue := by
      rcases hburden with ⟨hβ, -⟩ | ⟨-, hv⟩
      · rcases hk with hk | ⟨struck, hk⟩ <;> cases hβ.symm.trans hk
      · exact hv
    refine ⟨iff_of_false (fun ⟨r, hr⟩ => hclosed r hr hlost) (not_not_intro ⟨hv, ho⟩),
      iff_of_true hlost ⟨hv, ho⟩⟩

/-- A worker is registered, it is told to end, and it connects again. -/
def nfvEnds : Nat → Operation
  | 0 => .registerSecondary 0
  | 1 => .exit ⟨0, .nfv, 1⟩
  | 2 => .registerSecondary 1
  | _ => .listing

/-- The worker has ended as it was told when it connects again. The registration looks up the member
and announces the new connection to it before it is shut. -/
def nfvEnds.begin : List Cue :=
  nfvConnects ++
    ([.call, .move (.run 1), .move (.serve 0), .move (.signal 0 (.bytes "[]".toUTF8.toList)),
      .move (.receive 1 0),
      .move .accept, .call, .move (.run 2), .move (.signal 1 (.bytes nfvAnswer)), .move (.hear 2),
      .move (.run 2), .move (.run 2)] : List Cue)

/-- The member is shut, hands the connection back, and is displaced. -/
def nfvEnds.shutFirst : List Cue :=
  begin ++
    ([.move (.run 1), .move (.run 1), .move (.serve 0), .move (.run 2), .move (.serve 0),
      .move (.run 2), .move (.run 2), .move (.run 2), .move (.serve 0), .move (.run 2),
      .move (.run 1), .move (.run 1)] : List Cue)

/-- The member takes the connection, and is shut then. -/
def nfvEnds.takenFirst : List Cue :=
  begin ++
    ([.move (.run 2), .move (.serve 0), .move (.run 1), .move (.run 1), .move (.serve 0),
      .move (.run 2), .move (.run 1), .move (.run 1)] : List Cue)

theorem Broker.serves_when_shut_first :
    ∃ past b, Run (fun _ => Operation.Starts nfvEnds) (fresh 5) past b ∧
      (b.member 0).retired = true ∧ ∃ r, b.Serves (.nfv, 1) 1 r := by
  obtain ⟨past, b, hr, harrives, hp, hopen, hret, hx, hy⟩ :
      ∃ past b, Run (fun _ => Operation.Starts nfvEnds) (fresh 5) past b ∧
        Arrives nfvEnds (· = 1) 17 2 1 (.nfv, 1) past ∧
        (∀ d ∈ past[17]?, 0 < d.before.members.length) ∧ b.standing.closed[1]? ≠ some true ∧
        (b.member 0).retired = true ∧ (b.result? 2).isSome ∧ (b.result? 1).isSome :=
    exists_run_of_play (fun _ _ => True) nfvEnds.shutFirst (fun _ _ _ h _ => h) (by decide +kernel)
  obtain ⟨past₁, b₁, m, past₂, rfl, hn, hid, halone, hfail⟩ := harrives.split
  obtain ⟨x, hx⟩ := Option.isSome_iff_exists.1 hx
  obtain ⟨y, hy⟩ := Option.isSome_iff_exists.1 hy
  have hiff := serves_iff_of_exit (e := 1) (p := ⟨0, .nfv, 1⟩) hr hid rfl (hp _ hn) halone hfail
    (phase?_of_result? hx) (phase?_of_result? hy)
  exact ⟨_, b, hr, hret, hiff.1.2 fun h => hopen (hiff.2.2 h)⟩

/-- A member that has taken the new connection is shut by an exit that was told on the old one. -/
theorem Broker.exit_closes_another_connection :
    ∃ past b, Run (fun _ => Operation.Starts nfvEnds) (fresh 5) past b ∧
      Arrives nfvEnds (· = 1) 17 2 1 (.nfv, 1) past ∧
      Command.exit.line ∈ linesOn 0 (log past) ∧ Command.exit.line ∉ linesOn 1 (log past) ∧
      (∀ call ∈ b.calls, call.result?.isSome) ∧ (b.link 1).closed = true ∧
      ¬∃ r, b.Serves (.nfv, 1) 1 r := by
  obtain ⟨past, b, hr, harrives, hold, hnew, hf, hclosed, hnone⟩ :
      ∃ past b, Run (fun _ => Operation.Starts nfvEnds) (fresh 5) past b ∧
        Arrives nfvEnds (· = 1) 17 2 1 (.nfv, 1) past ∧
        Command.exit.line ∈ linesOn 0 (log past) ∧ Command.exit.line ∉ linesOn 1 (log past) ∧
        (∀ call ∈ b.calls, call.result?.isSome) ∧ (b.link 1).closed = true ∧
        Table.find? 1 b.registry = none :=
    exists_run_of_play (fun _ _ => True) nfvEnds.takenFirst (fun _ _ _ h _ => h)
      (by decide +kernel)
  refine ⟨past, b, hr, harrives, hold, hnew, hf, hclosed, ?_⟩
  rintro ⟨r, hreg, -⟩
  cases hnone.symm.trans hreg

end WorkerBroker
