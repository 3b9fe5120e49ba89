import WorkerBroker.Proofs.Locality
import WorkerBroker.Proofs.Sweeps
/-!
# Workers do not affect each other

What is done about one id is done at that id (`Service.apart`), and a read over all members, which
is about everyone, is to each of them what its own worker makes of it. The second is a statement
about two runs: if they agree on a member before the read, if its worker does the same when it is
asked, and if nobody else does anything to the member meanwhile, then the member is sent the same
lines, is kept or unregistered alike, and is shown alike (`Service.Reads.agree`). The workers of all
others may do what they like.

A read waits for everybody, though, and so a worker that hangs gives others more time. A member that
has lost its connection to the read is kept if its worker is back by the time the read goes through
the answers (`Service.kept_while_another_hangs`).
-/

namespace WorkerBroker

namespace Service

open Broker

/-! ## Reads -/

/-- A state that can be reached, and a run from there in which an operation is started and comes to
a result. -/
structure Reads (op : Operation) (a : Broker Upshot) (c : Nat) (under : List (Deed Upshot))
    (b : Broker Upshot) (x : Result) : Prop where
  isRun : ∃ asked timeout past, Run (fun _ => Starts asked) (fresh timeout) past a ∧
    Run (fun _ => Starts asked) a under b ∧ asked c = .operation op
  isNew : a.phase? c = none
  isOver : result? c b = some x

section

variable {op : Operation} {a b a' b' : Broker Upshot} {c c' : Nat}
  {under under' : List (Deed Upshot)} {x x' : Result} {r : Ref}

/-- The steps of the operation have changed the view of a member that was left to it. -/
theorem Reads.chain (h : Reads op a c under b x) (hr : Table.find? r.id a.registry = some r)
    (hl : IsLeftTo r c under) :
    ∃ steps, op.program.Leads steps (.done x) ∧
      Step.Chain (Step.Bears r (Responds under c r.number)) steps (a.view r c [])
        (b.view r c under) := by
  obtain ⟨asked, timeout, past, ha, hb, hop⟩ := h.isRun
  exact chain_of_result ha hb hop h.isNew h.isOver ((steady ha).1.sound.genuine hr) hl

/-- Two reads that agree on a member, and whose worker does the same, do the same to it. -/
theorem Reads.agree (hop : op = .listing ∨ op = .cpuUsage) (h : Reads op a c under b x)
    (h' : Reads op a' c' under' b' x') (hr : Table.find? r.id a.registry = some r)
    (hr' : Table.find? r.id a'.registry = some r)
    (hm : a'.standing.member r.number = a.standing.member r.number) (hl : IsLeftTo r c under)
    (hl' : IsLeftTo r c' under')
    (hsame : ∀ w o w' o', Responds under c r.number w o → Responds under' c' r.number w' o' →
      w = w' ∧ o = o') :
    b.view r c under = b'.view r c' under' ∧ x.about r = x'.about r := by
  obtain ⟨steps, hlead, hchain⟩ := h.chain hr hl
  obtain ⟨steps', hlead', hchain'⟩ := h'.chain hr' hl'
  have hview : a'.view r c' [] = a.view r c [] := by
    rw [Broker.view, Broker.view, hr, hr', hm]
    rfl
  rw [hview] at hchain'
  obtain rfl | rfl := hop
  · obtain ⟨hx, hswept⟩ := chain_listing hlead hchain hr
    obtain ⟨hx', hswept'⟩ := chain_listing hlead' hchain' hr
    have hviews : b.view r c under = b'.view r c' under' := by
      split at hswept
      · rename_i hk
        rw [if_pos hk] at hswept'
        obtain ⟨o, hswept⟩ := hswept
        obtain ⟨o', hswept'⟩ := hswept'
        exact (hswept.agree hswept' hsame).1
      · rename_i hk
        rw [if_neg hk] at hswept'
        exact hswept.trans hswept'.symm
    exact ⟨hviews, by rw [hx, hx', hviews]⟩
  · obtain ⟨o, hswept, hx⟩ := chain_cpuUsage hlead hchain hr
    obtain ⟨o', hswept', hx'⟩ := chain_cpuUsage hlead' hchain' hr
    obtain ⟨hviews, hclaims⟩ := hswept.agree hswept' hsame
    exact ⟨hviews, by rw [hx, hx', hclaims]⟩

end

/-! ## The theorem -/

/-- Workers do not affect each other. Whatever happens at one id, all is the same at the others: who
is registered, the members themselves, and their connections with all that was written on them. And
reads over all members that agree on a member, whose worker does the same, do the same to it,
whatever the others do. -/
theorem workers_are_independent :
    (∀ {asked : Nat → Service} {timeout : Nat} {past under : List (Deed Upshot)}
        {a b : Broker Upshot} {i : UInt32},
      Run (fun _ => Starts asked) (fresh timeout) past a → Run (fun _ => Starts asked) a under b →
      (∀ d ∈ under, d.IsAt asked (past ++ under) i) → a.Apart i b) ∧
    ∀ {op : Operation} {r : Ref} {a b a' b' : Broker Upshot} {c c' : Nat}
        {under under' : List (Deed Upshot)} {x x' : Result},
      op = .listing ∨ op = .cpuUsage → Reads op a c under b x → Reads op a' c' under' b' x' →
      Table.find? r.id a.registry = some r → Table.find? r.id a'.registry = some r →
      a'.standing.member r.number = a.standing.member r.number →
      IsLeftTo r c under → IsLeftTo r c' under' →
      (∀ w o w' o', Responds under c r.number w o → Responds under' c' r.number w' o' →
        w = w' ∧ o = o') →
      linesTo r.number c under = linesTo r.number c' under' ∧
        Table.find? r.id b.registry = Table.find? r.id b'.registry ∧
        b.standing.member r.number = b'.standing.member r.number ∧ x.about r = x'.about r := by
  refine ⟨fun ha hr h => apart ha hr h, fun hop h h' hr hr' hm hl hl' hsame => ?_⟩
  obtain ⟨hviews, habout⟩ := h.agree hop h' hr hr' hm hl hl' hsame
  exact ⟨congrArg View.lines hviews, congrArg View.entry hviews, congrArg View.member hviews,
    habout⟩

end Service

/-! ## Two workers -/

/-- The entries of a listing. -/
def Result.entries? : Result → Option (List Entry)
  | .entries es => some es
  | _ => none

/-- What comes from outside in a move, but for what the worker of one connection does: a worker
connects, or does something with another connection, or time passes. -/
def Deed.outside? (l : Nat) (d : Deed Upshot) : Option (Option (Nat × Signal) ⊕ Nat) :=
  match d.move with
  | .accept => some (.inl none)
  | .signal k s => if k = l then none else some (.inl (some (k, s)))
  | .pass time => some (.inr time)
  | _ => none

/-- A member turns to a command of a call: the ticket, the connection, and whether it can be written
on. -/
def Deed.begins? {ω : Type} (n c : Nat) (d : Deed ω) : Option (Ticket × Nat × Bool) :=
  match d.move, (d.before.queue n).head?, (d.before.member n).channel with
  | .serve k, some t, some ch =>
    if k = n ∧ t.call = c then some (t, ch.link, (d.before.link ch.link).isWritable) else none
  | _, _, _ => none

/-- What an exchange has come to. -/
def Event.outcome? (t : Ticket) (l : Nat) : Event → Option Outcome
  | .ended u k o => if u = t ∧ k = l then some o else none
  | _ => none

/-- What the worker of a member does about the commands of a call, in a list. -/
def responses {ω : Type} (under : List (Deed ω)) (c n : Nat) : List (Bool × Outcome) :=
  (under.filterMap (Deed.begins? n c)).flatMap fun (t, l, writable) =>
    ((log under).filterMap (Event.outcome? t l)).map fun o => (writable, o)

theorem Responds.mem_responses {ω : Type} {under : List (Deed ω)} {c n : Nat} {writable : Bool}
    {o : Outcome} (h : Responds under c n writable o) : (writable, o) ∈ responses under c n := by
  obtain ⟨i, l, ⟨d, hd, command, hturn, hcurrent, rfl⟩, he⟩ := h
  refine List.mem_flatMap.2 ⟨(⟨c, i⟩, l, (d.before.link l).isWritable), ?_, ?_⟩
  · refine List.mem_filterMap.2 ⟨d, hd, ?_⟩
    rw [Broker.Current] at hcurrent
    simp [Deed.begins?, hturn.move, hturn.front, hcurrent]
  · exact List.mem_map.2 ⟨o, List.mem_filterMap.2 ⟨_, he, if_pos ⟨rfl, rfl⟩⟩, rfl⟩

namespace Service

open Broker

/-- To have two runs after one, act out their scripts. -/
theorem exists_runs_of_enact (asked : Nat → Service)
    (script script₁ script₂ : List (Option (Move Upshot))) (timeout : Nat)
    (P : Broker Upshot → List (Deed Upshot) × Broker Upshot →
      List (Deed Upshot) × Broker Upshot → Bool)
    (h : (enact asked script [] (fresh timeout)).any fun s =>
      (enact asked script₁ [] s.2).any fun s₁ => (enact asked script₂ [] s.2).any fun s₂ =>
        P s.2 s₁ s₂) :
    ∃ past a past₁ b₁ past₂ b₂, Run (fun _ => Starts asked) (fresh timeout) past a ∧
      Run (fun _ => Starts asked) a past₁ b₁ ∧ Run (fun _ => Starts asked) a past₂ b₂ ∧
      P a (past₁, b₁) (past₂, b₂) := by
  obtain ⟨past, a, ha, h⟩ := exists_run_after h
  obtain ⟨past₁, b₁, hb₁, h⟩ := exists_run_after h
  obtain ⟨past₂, b₂, hb₂, h⟩ := exists_run_after h
  exact ⟨past, a, past₁, b₁, past₂, b₂, ha, hb₁, hb₂, h⟩

/-- Two workers of kind `nfv` connect, with the ids 1 and 2. -/
def twoNfvs : List (Option (Move Upshot)) :=
  nfvArrives ++
    ([some .accept, none, some (.run 1), some (.signal 1 (.bytes "[\"nfv\",2]".toUTF8.toList)),
      some (.hear 1), some (.run 1), some (.run 1), some (.run 1)] : List (Option (Move Upshot)))

/-- Once they have, the members are listed, and another connection comes. -/
def nfvsListed : Nat → Service
  | 2 => .operation .listing
  | 3 => .operation (.registerSecondary 2)
  | l => .operation (.registerSecondary l)

/-- Both members turn to their status query. -/
def bothAsked : List (Option (Move Upshot)) :=
  [none, some (.run 2), some (.run 2), some (.serve 0), some (.serve 1)]

/-- A worker answers its status query. -/
def statusAnswered (link leg : Nat) : List (Option (Move Upshot)) :=
  [some (.signal link (.bytes "\x7b\x7d".toUTF8.toList)), some (.receive 2 leg)]

/-- The first worker never answers, and its member is found without a connection. -/
def firstHangs : List (Option (Move Upshot)) :=
  [some (.pass 5), some (.expire 2 0), some (.run 2), some (.serve 0), some (.run 2), some (.run 2),
    some (.run 2)]

/-- Two forwarders, of which the first is dropped from the registry. -/
def nfvDropped : Nat → Service
  | 2 => .operation (.terminate .nfv 1)
  | l => .operation (.registerSecondary l)

/-- What a call does is at the id that the call is about. -/
theorem isAt_of_mover {asked : Nat → Service} {past : List (Deed Upshot)} {d : Deed Upshot}
    {i : UInt32} {c : Nat} (hc : d.before.mover? d.move = some c)
    (h : (asked c).IsAimedAt i past c) : d.IsAt asked past i := by
  obtain ⟨b, m⟩ := d
  have haimed : ∀ k, b.mover? m = some k → (asked k).IsAimedAt i past k := fun k hk => by
    cases hc.symm.trans hk
    exact h
  cases m with
  | signal l s => cases hc
  | release n => cases hc
  | _ => exact haimed

/-- To drop the first worker is nothing to the second. And if the second one answers, it makes no
difference to it whether the first one answers or hangs. -/
theorem workers_are_independent_when_first_hangs :
    (∃ past a under b, Run (fun _ => Starts nfvDropped) (fresh 5) past a ∧
      Run (fun _ => Starts nfvDropped) a under b ∧ Table.find? 1 a.registry ≠ none ∧
      Table.find? 1 b.registry = none ∧ a.Apart 1 b) ∧
    ∃ a b b' under under' x x', Reads .listing a 2 under b x ∧ Reads .listing a 2 under' b' x' ∧
      responses under 2 0 ≠ responses under' 2 0 ∧ x.entries? ≠ x'.entries? ∧
      linesTo 1 2 under = linesTo 1 2 under' ∧
      Table.find? 2 b.registry = Table.find? 2 b'.registry ∧
      b.standing.member 1 = b'.standing.member 1 ∧
      x.about ⟨1, .nfv, 2⟩ = x'.about ⟨1, .nfv, 2⟩ := by
  constructor
  · obtain ⟨past, a, under, b, -, -, ha, hb, -, h⟩ :=
      exists_runs_of_enact nfvDropped twoNfvs [none, some (.run 2), some (.run 2)] [] 5
        (fun a s _ => Table.find? 1 a.registry ≠ none ∧ Table.find? 1 s.2.registry = none ∧
          ∀ d ∈ s.1, d.before.mover? d.move = some 2)
        (by decide +kernel)
    obtain ⟨hthere, hgone, hmover⟩ := of_decide_eq_true h
    exact ⟨past, a, under, b, ha, hb, hthere, hgone,
      workers_are_independent.1 ha hb fun d hd => isAt_of_mover (hmover d hd) rfl⟩
  · obtain ⟨past, a, under, b, under', b', ha, hb, hb', h⟩ :=
      exists_runs_of_enact nfvsListed twoNfvs
        (bothAsked ++ statusAnswered 0 0 ++ statusAnswered 1 1 ++
          ([some (.run 2), some (.run 2)] : List (Option (Move Upshot))))
        (bothAsked ++ statusAnswered 1 1 ++ firstHangs) 5
        (fun a s s' => (a.phase? 2).isNone ∧ Table.find? 2 a.registry = some ⟨1, .nfv, 2⟩ ∧
          IsLeftTo ⟨1, .nfv, 2⟩ 2 s.1 ∧ IsLeftTo ⟨1, .nfv, 2⟩ 2 s'.1 ∧
          responses s.1 2 1 = [(true, .ok "\x7b\x7d".toUTF8.toList)] ∧
          responses s'.1 2 1 = [(true, .ok "\x7b\x7d".toUTF8.toList)] ∧
          responses s.1 2 0 ≠ responses s'.1 2 0 ∧
          (result? 2 s.2).bind Result.entries? = some [⟨.nfv, some 1⟩, ⟨.nfv, some 2⟩] ∧
          (result? 2 s'.2).bind Result.entries? = some [⟨.nfv, some 2⟩])
        (by decide +kernel)
    obtain ⟨hnew, hr, hl, hl', hanswer, hanswer', hdiffers, hx, hx'⟩ := of_decide_eq_true h
    obtain ⟨x, hx, hes⟩ := Option.bind_eq_some_iff.1 hx
    obtain ⟨x', hx', hes'⟩ := Option.bind_eq_some_iff.1 hx'
    have hread : Reads .listing a 2 under b x :=
      ⟨⟨nfvsListed, 5, past, ha, hb, rfl⟩, Option.isNone_iff_eq_none.1 hnew, hx⟩
    have hread' : Reads .listing a 2 under' b' x' :=
      ⟨⟨nfvsListed, 5, past, ha, hb', rfl⟩, Option.isNone_iff_eq_none.1 hnew, hx'⟩
    refine ⟨a, b, b', under, under', x, x', hread, hread', hdiffers, by simp [hes, hes'], ?_⟩
    refine workers_are_independent.2 (.inl rfl) hread hread' hr hr rfl hl hl' ?_
    intro w o w' o' h h'
    have hmem := h.mem_responses
    have hmem' := h'.mem_responses
    rw [hanswer, List.mem_singleton] at hmem
    rw [hanswer', List.mem_singleton] at hmem'
    exact Prod.mk.inj (hmem.trans hmem'.symm)

/-- A worker comes back on another connection. -/
def secondReturns : List (Option (Move Upshot)) :=
  [some .accept, none, some (.run 3), some (.signal 2 (.bytes "[\"nfv\",2]".toUTF8.toList)),
    some (.hear 3), some (.run 3), some (.run 3)]

/-- The second worker ends its stream. -/
def secondEnds : List (Option (Move Upshot)) :=
  [some (.signal 1 .ended), some (.receive 2 1)]

/-- The second member is found without a connection, and the listing is over. -/
def secondPruned : List (Option (Move Upshot)) :=
  [some (.run 2), some (.serve 1), some (.run 2), some (.run 2), some (.run 2)]

/-- As much time goes by as a command may take. -/
def timePasses : List (Option (Move Upshot)) :=
  [some (.pass 5)]

/-- The second worker is back before time is up for the first one, so the second member is kept. -/
def secondKept : List (Option (Move Upshot)) :=
  [some (.run 3), some (.serve 1), some (.pass 5), some (.expire 2 0), some (.run 2),
    some (.serve 0), some (.run 2), some (.run 2), some (.serve 1), some (.run 2), some (.run 2)]

/-- The second worker ends its stream when it is asked for its status, and then comes back. Whether
it is listed depends on whether the first worker answers or hangs. -/
theorem kept_while_another_hangs :
    ∃ past a past₁ b₁ past₂ b₂, Run (fun _ => Starts nfvsListed) (fresh 5) past a ∧
      Run (fun _ => Starts nfvsListed) a past₁ b₁ ∧ Run (fun _ => Starts nfvsListed) a past₂ b₂ ∧
      past₁.filterMap (Deed.outside? 0) = past₂.filterMap (Deed.outside? 0) ∧
      ((result? 2 b₁).bind Result.entries?) = some [⟨.nfv, some 1⟩] ∧
      ((result? 2 b₂).bind Result.entries?) = some [⟨.nfv, some 2⟩] := by
  obtain ⟨past, a, past₁, b₁, past₂, b₂, ha, h₁, h₂, h⟩ :=
    exists_runs_of_enact nfvsListed twoNfvs
      -- the first worker answers, and the listing is over before the second one comes back
      (bothAsked ++ statusAnswered 0 0 ++ secondEnds ++ secondPruned ++ secondReturns ++ timePasses)
      -- the first worker hangs until the second one has come back
      (bothAsked ++ secondEnds ++ secondReturns ++ secondKept)
      5 (fun _ s₁ s₂ => s₁.1.filterMap (Deed.outside? 0) = s₂.1.filterMap (Deed.outside? 0) ∧
        (result? 2 s₁.2).bind Result.entries? = some [⟨.nfv, some 1⟩] ∧
        (result? 2 s₂.2).bind Result.entries? = some [⟨.nfv, some 2⟩])
      (by decide +kernel)
  exact ⟨past, a, past₁, b₁, past₂, b₂, ha, h₁, h₂, of_decide_eq_true h⟩

end Service

end WorkerBroker
