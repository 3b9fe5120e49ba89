import WorkerBroker.Proofs.Verdicts
/-!
# One member in the course of a call

A read over all members turns to many of them, and what it does to one is all that this one has to
care about. A `View` is what there is to see of one member: who is registered under its id, what it
is at, and which lines the call has sent it. `Step.Bears` says how each step of the call's program
changes the view, and nothing else in it depends on other members: the roster shows the member if it
is registered, a turn on the member finds it with or without a connection, and a command for it is
written and answered, or not (`Encounter`).

`Service.tracked` is the induction on runs. If nobody but the call does anything to the member, the
steps that the call has made lead from the view at the beginning to the view now, whatever goes on
at other members, and in whichever order.
-/

namespace WorkerBroker

/-! ## Lines to one member -/

/-- The line that is written for a call when a member turns to it, and the connection. -/
def Deed.lineTo? {ω : Type} (n c : Nat) (d : Deed ω) : Option (Nat × String) :=
  match d.move with
  | .serve k => if k = n then d.event?.bind (Event.lineFor? c) else none
  | _ => none

/-- The lines that a call has sent to a member, each with its connection. -/
def linesTo {ω : Type} (n c : Nat) (past : List (Deed ω)) : List (Nat × String) :=
  past.filterMap (Deed.lineTo? n c)

/-! ## What a worker does -/

/-- A member has turned to a command of a call, and its connection could be written on, or not. -/
def Begins {ω : Type} (under : List (Deed ω)) (n : Nat) (t : Ticket) (l : Nat) (writable : Bool) :
    Prop :=
  ∃ d ∈ under, ∃ command, d.TurnsTo n t command ∧ d.before.Current n l ∧
    (d.before.link l).isWritable = writable

/-- What the worker of a member does about a command of a call: whether its connection can be
written on when the member turns to the command, and what the exchange comes to. -/
def Responds {ω : Type} (under : List (Deed ω)) (c n : Nat) (writable : Bool) (o : Outcome) :
    Prop :=
  ∃ i l, Begins under n ⟨c, i⟩ l writable ∧ .ended ⟨c, i⟩ l o ∈ log under

/-- A member's connection is this one, and no other has been announced. -/
def Member.Uses (m : Member) (l : Nat) : Prop :=
  m.channel = some ⟨l, m.generation⟩

/-- A member without its connection. -/
def Member.cutOff (m : Member) : Member := { m with channel := none }

/-- What a command comes to if the worker does this, what the member is at afterwards, and the lines
that are written. -/
inductive Encounter (responds : Bool → Outcome → Prop) (line : String) (m : Member) :
    Outcome → Member → List (Nat × String) → Prop where
  | refused (h : ∀ l, ¬m.Uses l) (s : Silence) : Encounter responds line m (.error s) m []
  | broken {l : Nat} (h : m.Uses l) (hw : responds false (.error .reset)) :
      Encounter responds line m (.error .reset) m.cutOff []
  | replied {l : Nat} {raw : Bytes} (h : m.Uses l) (hw : responds true (.ok raw)) :
      Encounter responds line m (.ok raw) m [(l, line)]
  | failed {l : Nat} {s : Silence} (h : m.Uses l) (hw : responds true (.error s)) :
      Encounter responds line m (.error s) m.cutOff [(l, line)]

/-! ## The view -/

/-- What there is to see of a member in the course of a call. -/
structure View where
  /-- who is registered under its id -/
  entry : Option Ref
  /-- what it is at, its queue left out -/
  member : Member
  /-- the lines that the call has sent it -/
  lines : List (Nat × String)

/-- The member of a view has met with a command, and that is all. -/
def View.Meets (responds : Bool → Outcome → Prop) (line : String) (v : View) (o : Outcome)
    (v' : View) : Prop :=
  ∃ lines, Encounter responds line v.member o v'.member lines ∧ v'.entry = v.entry ∧
    v'.lines = v.lines ++ lines

/-- What there is to see of a member now. -/
def Broker.view {ω : Type} (r : Ref) (c : Nat) (under : List (Deed ω)) (b : Broker ω) : View :=
  ⟨Table.find? r.id b.registry, b.standing.member r.number, linesTo r.number c under⟩

/-- A roster shows a member once if it is the one registered under its id, and otherwise not. -/
structure Shows (r : Ref) (entry : Option Ref) (refs : List Ref) : Prop where
  found : refs.filter (fun q => q.id = r.id) = entry.toList
  same : ∀ q ∈ refs, q.number = r.number → q = r
  proper : ∀ q ∈ refs, q.kind = .primary ↔ q.id = primaryId

/-- A member is among others at this place only. -/
def IsOnly (refs : List Ref) (r : Ref) (k : Nat) : Prop :=
  refs[k]? = some r ∧ ∀ j q, refs[j]? = some q → q.number = r.number → j = k

/-- What commands that are sent all together are to a member: nothing if none of them is for it, and
a command if one of them is. -/
def View.Converses (r : Ref) (responds : Bool → Outcome → Prop) (commands : List (Ref × Command))
    (outcomes : List Outcome) (v v' : View) : Prop :=
  ((∀ q ∈ commands, q.1.number ≠ r.number) → v' = v) ∧
  ∀ k, IsOnly (commands.map Prod.fst) r k → ∃ command o, commands[k]? = some (r, command) ∧
    outcomes[k]? = some o ∧ v.Meets responds command.line o v'

/-- How a step of a call changes the view of a member. Steps that look somebody up or place a
connection may change anything. -/
def Step.Bears (r : Ref) (responds : Bool → Outcome → Prop) : Step → View → View → Prop
  | .act .roster refs, v, v' => v' = v ∧ Shows r v.entry refs
  | .act (.strike q) _, v, v' =>
    v' = { v with entry := if q.id = r.id ∧ v.entry = some q then none else v.entry }
  | .act (.advance q) _, v, v' =>
    v' = if q.number = r.number then
      { v with member := { v.member with generation := v.member.generation + 1 } } else v
  | .wait (.enter q .shut) _, v, v' =>
    v' = if q.number = r.number then
      { v with member := { v.member.cutOff with retired := true } } else v
  | .wait (.enter q .retire) x, v, v' =>
    if q.number = r.number then
      (x = true → v.member.channel = none ∧
        v' = { v with member := { v.member with retired := true } }) ∧
      (x = false → v.member.channel ≠ none ∧ v' = v)
    else v' = v
  | .wait (.converse commands) outcomes, v, v' => v.Converses r responds commands outcomes v'
  | _, _, _ => True

/-- Steps change the view one after the other. -/
def Step.Chain (S : Step → View → View → Prop) : List Step → View → View → Prop
  | [], v, v' => v' = v
  | e :: steps, v, v' => ∃ u, S e v u ∧ Chain S steps u v'

section

variable {S S' : Step → View → View → Prop} {steps steps' : List Step} {v v' : View}

theorem Step.Chain.append {u : View} (h : Step.Chain S steps v u)
    (h' : Step.Chain S steps' u v') : Step.Chain S (steps ++ steps') v v' := by
  induction steps generalizing v with
  | nil =>
    obtain rfl : u = v := h
    exact h'
  | cons e steps ih =>
    obtain ⟨w, he, h⟩ := h
    exact ⟨w, he, ih h⟩

theorem Step.Chain.of_append (h : Step.Chain S (steps ++ steps') v v') :
    ∃ u, Step.Chain S steps v u ∧ Step.Chain S steps' u v' := by
  induction steps generalizing v with
  | nil => exact ⟨v, rfl, h⟩
  | cons e steps ih =>
    obtain ⟨w, he, h⟩ := h
    obtain ⟨u, hu, h⟩ := ih h
    exact ⟨u, ⟨w, he, hu⟩, h⟩

theorem Step.Chain.mono (h : Step.Chain S steps v v') (hS : ∀ e v v', S e v v' → S' e v v') :
    Step.Chain S' steps v v' := by
  induction steps generalizing v with
  | nil => exact h
  | cons e steps ih =>
    obtain ⟨w, he, h⟩ := h
    exact ⟨w, hS _ _ _ he, ih h⟩

theorem Encounter.mono {responds responds' : Bool → Outcome → Prop} {line : String} {m m' : Member}
    {o : Outcome} {lines : List (Nat × String)} (h : Encounter responds line m o m' lines)
    (hr : ∀ w o, responds w o → responds' w o) : Encounter responds' line m o m' lines := by
  cases h with
  | refused h s => exact .refused h s
  | broken h hw => exact .broken h (hr _ _ hw)
  | replied h hw => exact .replied h (hr _ _ hw)
  | failed h hw => exact .failed h (hr _ _ hw)

theorem View.Meets.mono {responds responds' : Bool → Outcome → Prop} {line : String} {o : Outcome}
    (h : v.Meets responds line o v') (hr : ∀ w o, responds w o → responds' w o) :
    v.Meets responds' line o v' := by
  obtain ⟨lines, henc, h⟩ := h
  exact ⟨lines, henc.mono hr, h⟩

theorem Step.Bears.mono {r : Ref} {responds responds' : Bool → Outcome → Prop} {e : Step}
    (h : e.Bears r responds v v') (hr : ∀ w o, responds w o → responds' w o) :
    e.Bears r responds' v v' := by
  cases e with
  | act a x => cases a <;> exact h
  | wait w x =>
    cases w with
    | enter q turn => cases turn <;> exact h
    | greet l => exact h
    | converse commands =>
      refine ⟨h.1, fun k hk => ?_⟩
      obtain ⟨command, o, hcommand, ho, hmeets⟩ := h.2 k hk
      exact ⟨command, o, hcommand, ho, hmeets.mono hr⟩

end

/-! ## While commands are on their way -/

/-- How far a command for the member is, and what there is to see of the member meanwhile. -/
inductive LegView {ω : Type} (under : List (Deed ω)) (t : Ticket) (n : Nat) (line : String)
    (v : View) : LegState → View → Prop where
  | queued : LegView under t n line v .queued v
  | talking {l d : Nat} (h : v.member.Uses l) (hb : Begins under n t l true) :
      LegView under t n line v (.talking l d) { v with lines := v.lines ++ [(l, line)] }
  | ended {o : Outcome} {now : View} (h : v.Meets (Responds under t.call n) line o now) :
      LegView under t n line v (.ended o) now

/-- What there is to see of a member while a call is in this phase, when all steps so far have come
to a view. -/
def Stands {ω : Type} (r : Ref) (c : Nat) (under : List (Deed ω)) (v now : View) :
    Phase ω → Prop
  | .conversing legs _ =>
    ((∀ leg ∈ legs, leg.member.number ≠ r.number) → now = v) ∧
    ∀ k, IsOnly (legs.map Leg.member) r k → ∀ leg, legs[k]? = some leg →
      LegView under ⟨c, k⟩ r.number leg.command.line v leg.state now
  | _ => now = v

/-- A move leaves a member as it is, and its registration. -/
def Deed.LeavesAlone {ω : Type} (d : Deed ω) (r : Ref) : Prop :=
  ∀ b', d.before.step d.move = some b' →
    Table.find? r.id b'.registry = Table.find? r.id d.before.registry ∧
    b'.standing.member r.number = d.before.standing.member r.number

/-- Nobody but a call does anything to a member. -/
def IsLeftTo {ω : Type} (r : Ref) (c : Nat) (under : List (Deed ω)) : Prop :=
  ∀ d ∈ under, d.before.mover? d.move ≠ some c → d.LeavesAlone r

/-- Whether a move leaves a member as it is can be computed. -/
instance {ω : Type} (d : Deed ω) (r : Ref) : Decidable (d.LeavesAlone r) :=
  decidable_of_iff ((d.before.step d.move).all fun b' =>
      Table.find? r.id b'.registry = Table.find? r.id d.before.registry ∧
        b'.standing.member r.number = d.before.standing.member r.number) (by
    rw [Deed.LeavesAlone, Option.all_eq_true]
    simp)

instance {ω : Type} (r : Ref) (c : Nat) (under : List (Deed ω)) : Decidable (IsLeftTo r c under) :=
  inferInstanceAs (Decidable (∀ d ∈ under, d.before.mover? d.move ≠ some c → d.LeavesAlone r))

/-- A call has made steps of its program, and they have come to the view that there is now. -/
def Tracked {ω : Type} (P : Program ω) (r : Ref) (c : Nat) (v₀ : View) (under : List (Deed ω))
    (b : Broker ω) (p : Phase ω) : Prop :=
  p = .abandoned ∨ ∃ steps q v, p.left? = some q ∧ P.Leads steps q ∧
    Step.Chain (Step.Bears r (Responds under c r.number)) steps v₀ v ∧
    Stands r c under v (b.view r c under) p

section

open Broker

variable {ω : Type} {under : List (Deed ω)} {d : Deed ω} {b b' : Broker ω} {m : Move ω}
  {c n l k : Nat} {t : Ticket} {r : Ref} {v v₀ now : View} {p : Phase ω} {P : Program ω}

theorem Begins.mono {w : Bool} (h : Begins under n t l w) (d : Deed ω) :
    Begins (under ++ [d]) n t l w := by
  obtain ⟨e, he, h⟩ := h
  exact ⟨e, List.mem_append_left _ he, h⟩

theorem mem_log_append {past : List (Deed ω)} {e : Event} (h : e ∈ log past) (d : Deed ω) :
    e ∈ log (past ++ [d]) := by
  rw [log_snoc]
  exact List.mem_append_left _ h

theorem Responds.mono {w : Bool} {o : Outcome} (h : Responds under c n w o) (d : Deed ω) :
    Responds (under ++ [d]) c n w o := by
  obtain ⟨i, l, hb, he⟩ := h
  exact ⟨i, l, hb.mono d, mem_log_append he d⟩

theorem LegView.mono {line : String} {state : LegState}
    (h : LegView under t n line v state now) (d : Deed ω) :
    LegView (under ++ [d]) t n line v state now := by
  cases h with
  | queued => exact .queued
  | talking h hb => exact .talking h (hb.mono d)
  | ended h => exact .ended (h.mono fun _ _ hw => hw.mono d)

theorem Stands.mono (h : Stands r c under v now p) (d : Deed ω) :
    Stands r c (under ++ [d]) v now p := by
  cases p with
  | conversing legs next => exact ⟨h.1, fun k hk leg hl => (h.2 k hk leg hl).mono d⟩
  | _ => exact h

theorem chain_mono {steps : List Step}
    (h : Step.Chain (Step.Bears r (Responds under c r.number)) steps v₀ v) (d : Deed ω) :
    Step.Chain (Step.Bears r (Responds (under ++ [d]) c r.number)) steps v₀ v :=
  h.mono fun _ _ _ he => he.mono fun _ _ hw => hw.mono d

theorem linesTo_snoc (n c : Nat) (under : List (Deed ω)) (d : Deed ω) :
    linesTo n c (under ++ [d]) = linesTo n c under ++ (d.lineTo? n c).toList :=
  filterMap_snoc _ under d

/-- A line to a member is written in a move of the call. -/
theorem lineTo?_of_not_mover (hc : b.mover? m ≠ some c) :
    Deed.lineTo? n c ⟨b, m⟩ = none := by
  cases m with
  | serve k =>
    simp only [Deed.lineTo?]
    split
    · rcases he : Deed.event? ⟨b, .serve k⟩ with _ | e
      · rfl
      · cases e with
        | wrote t l line =>
          refine if_neg fun ht => hc ?_
          rw [← ht]
          exact Broker.mover?_of_ticket he rfl
        | _ => rfl
    · rfl
  | _ => rfl

theorem lineTo?_of_event {x : Option Event} (he : Deed.event? ⟨b, m⟩ = x)
    (hx : x.bind (Event.lineFor? c) = none) : Deed.lineTo? n c ⟨b, m⟩ = none := by
  cases m with
  | serve k =>
    simp only [Deed.lineTo?, he, hx, ite_self]
  | _ => rfl

/-- The view after a move in which no line is written. -/
theorem view_snoc (hline : d.lineTo? r.number c = none)
    (hentry : Table.find? r.id b'.registry = Table.find? r.id b.registry)
    (hmember : b'.standing.member r.number = b.standing.member r.number) :
    b'.view r c (under ++ [d]) = b.view r c under := by
  simp only [Broker.view, linesTo_snoc, hline, hentry, hmember, Option.toList_none, List.append_nil]

theorem view_of_standing (hline : d.lineTo? r.number c = none) (h : b'.standing = b.standing) :
    b'.view r c (under ++ [d]) = b.view r c under := by
  refine view_snoc hline ?_ (by rw [h])
  exact congrArg (fun s : Standing => Table.find? r.id s.registry) h

/-- The same connection is used by a member and by what there is to see of it. -/
theorem uses_iff : (b.standing.member n).Uses l ↔ b.Current n l :=
  Broker.current_iff.symm

/-- A member that loses its connection is cut off, and all else stays as it is. -/
theorem view_of_disconnect (hline : d.lineTo? r.number c = none)
    (h : b'.standing = b.standing.disconnect r.number) :
    b'.view r c (under ++ [d]) =
      ⟨(b.view r c under).entry, (b.view r c under).member.cutOff, (b.view r c under).lines⟩ := by
  have hentry : Table.find? r.id b'.registry = Table.find? r.id b.registry := by
    have hreg : b'.standing.registry = b.standing.registry := by
      rw [h, Standing.registry_disconnect]
    exact congrArg (Table.find? r.id) hreg
  have hmember : b'.standing.member r.number = (b.standing.member r.number).cutOff := by
    rw [h, Standing.member_disconnect_self]
    rfl
  simp only [Broker.view, linesTo_snoc, hline, hentry, hmember, Option.toList_none, List.append_nil]

/-! ### The moves of the call -/

/-- The member turns to the command. -/
theorem LegView.turn {command : Command} {state : LegState}
    (hturn : Deed.TurnsTo ⟨b, m⟩ r.number ⟨c, k⟩ command)
    (hspoken : Spoken b ⟨c, k⟩ r.number command (Deed.event? ⟨b, m⟩).toList state)
    (hcosts : b.Costs r.number state b')
    (hspares : (∀ l, ¬b.Current r.number l) → b'.standing = b.standing) :
    LegView (under ++ [⟨b, m⟩]) ⟨c, k⟩ r.number command.line (b.view r c under) state
      (b'.view r c (under ++ [⟨b, m⟩])) := by
  have hbegins : ∀ {l : Nat} {w : Bool}, b.Current r.number l → (b.link l).isWritable = w →
      Begins (under ++ [⟨b, m⟩]) r.number ⟨c, k⟩ l w := fun hcur hw =>
    ⟨_, List.mem_append_right _ (List.mem_singleton_self _), command, hturn, hcur, hw⟩
  generalize hevents : (Deed.event? ⟨b, m⟩).toList = events at hspoken
  cases hspoken with
  | refused hno s =>
    have he : Deed.event? ⟨b, m⟩ = none := Option.toList_eq_nil_iff.1 hevents
    rw [view_of_standing (lineTo?_of_event he rfl) (hspares hno)]
    exact .ended ⟨[], .refused (fun l hl => hno l (uses_iff.1 hl)) s, rfl, (List.append_nil _).symm⟩
  | broken l hcur hw =>
    have he : Deed.event? ⟨b, m⟩ = some (.ended ⟨c, k⟩ l (.error .reset)) := by simpa using hevents
    rw [view_of_disconnect (lineTo?_of_event he rfl) (hcosts.loses _ rfl l hcur)]
    refine .ended ⟨[], .broken (uses_iff.2 hcur) ⟨k, l, hbegins hcur (by simpa using hw), ?_⟩, rfl,
      (List.append_nil _).symm⟩
    rw [log_snoc, he]
    exact List.mem_append_right _ (List.mem_singleton_self _)
  | talking l deadline hu =>
    have he : Deed.event? ⟨b, m⟩ = some (.wrote ⟨c, k⟩ l command.line) := by simpa using hevents
    have hline : Deed.lineTo? r.number c ⟨b, m⟩ = some (l, command.line) := by
      have hserve : m = .serve r.number := hturn.move
      subst hserve
      simp only [Deed.lineTo?, if_true, he, Option.bind_some, Event.lineFor?]
    have hst := hcosts.still fun s hs => by cases hs
    have hview : b'.view r c (under ++ [⟨b, m⟩]) =
        { b.view r c under with lines := (b.view r c under).lines ++ [(l, command.line)] } := by
      have hreg : b'.registry = b.registry := congrArg Standing.registry hst
      simp only [Broker.view, linesTo_snoc, hline, hst, hreg, Option.toList_some]
    rw [hview]
    exact .talking (uses_iff.2 hu.1) (hbegins hu.1 hu.2)
  | ended l o hu =>
    -- two things are never seen in one move
    rcases he : Deed.event? ⟨b, m⟩ with _ | e <;> rw [he] at hevents <;> simp at hevents

/-- The exchange of the command comes to its end. -/
theorem LegView.over {line : String} {d : Nat} {o : Outcome}
    (h : LegView under ⟨c, k⟩ r.number line v (.talking l d) (b.view r c under))
    (he : Deed.event? ⟨b, m⟩ = some (.ended ⟨c, k⟩ l o))
    (hcosts : b.Costs r.number (.ended o) b') :
    LegView (under ++ [⟨b, m⟩]) ⟨c, k⟩ r.number line v (.ended o)
      (b'.view r c (under ++ [⟨b, m⟩])) := by
  generalize hnow : b.view r c under = now at h
  cases h with
  | talking huses hbegins =>
    have hmember : b.standing.member r.number = v.member := congrArg View.member hnow
    have hresponds : Responds (under ++ [⟨b, m⟩]) c r.number true o := by
      refine ⟨k, l, hbegins.mono _, ?_⟩
      rw [log_snoc, he]
      exact List.mem_append_right _ (List.mem_singleton_self _)
    cases o with
    | ok raw =>
      rw [view_of_standing (lineTo?_of_event he rfl) (hcosts.still nofun), hnow]
      exact .ended ⟨_, .replied huses hresponds, rfl, rfl⟩
    | error s =>
      have hcur : b.Current r.number l := uses_iff.1 (hmember ▸ huses)
      rw [view_of_disconnect (lineTo?_of_event he rfl) (hcosts.loses s rfl l hcur), hnow]
      exact .ended ⟨_, .failed huses hresponds, rfl, rfl⟩

/-- The command for the member goes on. -/
theorem LegView.step {leg : Leg} {state : LegState}
    (h : LegView under ⟨c, k⟩ r.number leg.command.line v leg.state (b.view r c under))
    (hmember : leg.member = r) (hs : b.LegStep m b' ⟨c, k⟩ leg state) :
    LegView (under ++ [⟨b, m⟩]) ⟨c, k⟩ r.number leg.command.line v state
      (b'.view r c (under ++ [⟨b, m⟩])) := by
  subst hmember
  rcases hs.goes with ⟨hq, hturn, hspoken⟩ | ⟨l, d, o, hl, rfl, he⟩
  · rw [hq] at h
    generalize hnow : b.view leg.member c under = now at h
    cases h with
    | queued =>
      subst hnow
      exact .turn hturn hspoken hs.costs (hs.spares hq)
  · rw [hl] at h
    exact h.over he hs.costs

/-- The command for another member goes on. -/
theorem view_of_other {leg : Leg} {state : LegState} (hmember : leg.member.number ≠ r.number)
    (hs : b.LegStep m b' ⟨c, k⟩ leg state) :
    b'.view r c (under ++ [⟨b, m⟩]) = b.view r c under := by
  have hline : Deed.lineTo? r.number c ⟨b, m⟩ = none := by
    rcases hs.goes with ⟨-, hturn, -⟩ | ⟨l, d, o, -, -, he⟩
    · have hserve : m = .serve leg.member.number := hturn.move
      subst hserve
      exact if_neg hmember
    · exact lineTo?_of_event he rfl
  rcases hs.costs.place with hst | hst
  · exact view_of_standing hline hst
  · refine view_snoc hline ?_ ?_
    · have hreg : b'.standing.registry = b.standing.registry := by
        rw [hst, Standing.registry_disconnect]
      exact congrArg (Table.find? r.id) hreg
    · rw [hst, Standing.member_disconnect_ne _ (Ne.symm hmember)]

/-! ### Steps of the program -/

/-- The values of a table that have an id are what is found under it. -/
theorem filter_values {t : Table UInt32 Ref} (h : Table.Ascending t) (hk : ∀ e ∈ t, e.2.id = e.1)
    (k : UInt32) : (t.map Prod.snd).filter (fun q => q.id = k) = (Table.find? k t).toList := by
  induction t with
  | nil => rfl
  | cons e t ih =>
    obtain ⟨j, v⟩ := e
    obtain ⟨above, rest⟩ := List.pairwise_cons.1 h
    have hv : v.id = j := hk _ List.mem_cons_self
    have ht := ih rest fun e he => hk e (List.mem_cons_of_mem _ he)
    by_cases hj : k = j
    · subst hj
      have hnone : Table.find? k t = none := by
        rw [Option.eq_none_iff_forall_ne_some]
        intro w hw
        exact absurd (above _ (Table.mem_of_find? hw)) (UInt32.lt_irrefl k)
      rw [hnone] at ht
      simp [Table.find?, hv, ht]
    · simp [Table.find?, hv, hj, Ne.symm hj, ht]

/-- Everyone who is registered is shown once. -/
theorem shows_roster (hb : b.Steady) (hr : b.standing.Genuine r) :
    Shows r (Table.find? r.id b.registry) (b.registry.map Prod.snd) where
  found := filter_values hb.sound.ascending (fun _ he => (hb.sound.keyed_of_mem he).1) r.id
  same q hq hn := by
    obtain ⟨e, he, rfl⟩ := List.mem_map.1 hq
    exact (hb.sound.keyed_of_mem he).2.ext hr hn
  proper q hq := by
    obtain ⟨e, he, rfl⟩ := List.mem_map.1 hq
    exact hb.sound.primary_iff (hb.sound.keyed_of_mem he).2

/-- The view after a move in which no line is written, by the standing that it leads to. -/
theorem view_eq {s : Standing} (hline : d.lineTo? r.number c = none) (h : b'.standing = s) :
    b'.view r c (under ++ [d]) =
      ⟨Table.find? r.id s.registry, s.member r.number, (b.view r c under).lines⟩ := by
  subst h
  simp only [Broker.view, linesTo_snoc, hline, Option.toList_none, List.append_nil,
    registry_standing]

/-- Who is registered after a member was struck off. -/
theorem find?_strike (b : Broker ω) (q : Ref) (k : UInt32) :
    Table.find? k (b.act (.strike q)).2.registry =
      if q.id = k ∧ Table.find? k b.registry = some q then none else Table.find? k b.registry := by
  simp only [act]
  by_cases hq : Table.find? q.id b.registry = some q
  · rw [if_pos hq, Table.find?_remove]
    by_cases hk : q.id = k
    · subst hk
      simp [hq]
    · simp [hk, Ne.symm hk]
  · have hno : ¬(q.id = k ∧ Table.find? k b.registry = some q) := by
      rintro ⟨rfl, h⟩
      exact hq h
    rw [if_neg hq, if_neg hno]

/-- An act changes the view as its step does. -/
theorem bears_act {responds : Bool → Outcome → Prop} (hb : b.Steady) (hr : b.standing.Genuine r)
    (a : Act) (hline : d.lineTo? r.number c = none) (h : b'.standing = (b.act a).2.standing) :
    Step.Bears r responds (.act a (b.act a).1) (b.view r c under) (b'.view r c (under ++ [d])) := by
  cases a with
  | roster => exact ⟨view_of_standing hline h, shows_roster hb hr⟩
  | strike q =>
    have hmember : (b.act (.strike q)).2.standing.member r.number = b.standing.member r.number := by
      rw [standing_strike]
      split <;> rfl
    rw [view_eq (b := b) hline h, registry_standing, find?_strike, hmember]
    rfl
  | advance q =>
    rw [standing_advance] at h
    simp only [Step.Bears]
    rw [view_eq (b := b) hline h]
    split
    · rename_i hn
      rw [hn, Standing.member_change_self hr.1]
      rfl
    · rename_i hn
      rw [Standing.member_change_ne _ _ (Ne.symm hn)]
      rfl
  | _ => trivial

/-- A turn on a member changes the view as its step does. -/
theorem bears_turn {responds : Bool → Outcome → Prop} {q : Ref} (hq : b.standing.Genuine q)
    (turn : Turn) (hline : d.lineTo? r.number c = none)
    (h : b'.standing = (b.take q.number turn).2.standing) :
    Step.Bears r responds (.wait (.enter q turn) (b.take q.number turn).1) (b.view r c under)
      (b'.view r c (under ++ [d])) := by
  cases turn with
  | retire =>
    have hfalse (ha : (b.take q.number .retire).1 = false) :
        b'.view r c (under ++ [d]) = b.view r c under :=
      view_of_standing hline (h.trans (congrArg standing (take_retire_false ha).2))
    have htrue (ha : (b.take q.number .retire).1 = true) :
        b'.view r c (under ++ [d]) =
          ⟨(b.view r c under).entry,
            (b.standing.change q.number fun m => { m with retired := true }).member r.number,
            (b.view r c under).lines⟩ :=
      view_eq hline (h.trans (take_retire_true ha).2)
    simp only [Step.Bears]
    split
    · rename_i hn
      refine ⟨fun ha => ⟨?_, ?_⟩, fun ha => ⟨fun hnone => ?_, hfalse ha⟩⟩
      · have hch := (take_retire_true ha).1
        rw [hn, ← channel_standing] at hch
        exact hch
      · rw [htrue ha, ← hn, Standing.member_change_self hq.1]
        simp only [Broker.view, hn]
      · have hch := (take_retire_false ha).1
        rw [hn, ← channel_standing] at hch
        exact absurd hnone (Option.isSome_iff_ne_none.1 hch)
    · rename_i hn
      cases ha : (b.take q.number .retire).1 with
      | false => exact hfalse ha
      | true =>
        rw [htrue ha, Standing.member_change_ne _ _ (Ne.symm hn)]
        rfl
  | shut =>
    rw [standing_shut] at h
    simp only [Step.Bears]
    rw [view_eq (b := b) hline h, Standing.registry_change, Standing.registry_disconnect]
    split
    · rename_i hn
      rw [← hn, Standing.member_change_self (by simpa using hq.1), Standing.member_disconnect_self,
        Broker.view, hn]
      rfl
    · rename_i hn
      rw [Standing.member_change_ne _ _ (Ne.symm hn), Standing.member_disconnect_ne _ (Ne.symm hn)]
      rfl
  | _ => trivial

/-- The call has made a step of its program. -/
theorem Tracked.next {steps : List Step} {q q' : Program ω} {e : Step} (hpath : P.Leads steps q)
    (hchain : Step.Chain (Step.Bears r (Responds under c r.number)) steps v₀ v)
    (he : q.Leads [e] q')
    (hbears : e.Bears r (Responds (under ++ [d]) c r.number) v (b'.view r c (under ++ [d]))) :
    Tracked P r c v₀ (under ++ [d]) b' (.running q') :=
  .inr ⟨steps ++ [e], q', _, rfl, hpath.trans he,
    (chain_mono hchain d).append ⟨_, hbears, rfl⟩, rfl⟩

/-- Commands that are all over have changed the view as their step does. -/
theorem Tracked.of_phaseOf {legs : List Leg} {next : List Outcome → Program ω} {steps : List Step}
    (hpath : P.Leads steps (.wait (.converse (legs.map fun l => (l.member, l.command))) next))
    (hchain : Step.Chain (Step.Bears r (Responds under c r.number)) steps v₀ v)
    (hstands : Stands r c under v (b.view r c under) (.conversing legs next)) :
    Tracked P r c v₀ under b (phaseOf legs next) := by
  rcases ho : legs.mapM Leg.outcome? with _ | outcomes
  · rw [phaseOf, ho]
    exact .inr ⟨steps, _, v, rfl, hpath, hchain, hstands⟩
  · rw [phaseOf, ho]
    have hbears : Step.Bears r (Responds under c r.number)
        (.wait (.converse (legs.map fun l => (l.member, l.command))) outcomes) v
        (b.view r c under) := by
      refine ⟨fun hno => hstands.1 fun leg hleg => hno _ (List.mem_map_of_mem hleg), fun k hk => ?_⟩
      rw [List.map_map] at hk
      obtain ⟨leg, hl, hmember⟩ : ∃ leg, legs[k]? = some leg ∧ leg.member = r := by
        have hat := hk.1
        rw [List.getElem?_map, Option.map_eq_some_iff] at hat
        exact hat
      obtain ⟨o, hoi, hs⟩ := outcome_of_leg ho hl
      have hview := hstands.2 k hk leg hl
      rw [hs] at hview
      refine ⟨leg.command, o, ?_, hoi, ?_⟩
      · rw [List.getElem?_map, hl, ← hmember]
        rfl
      · generalize b.view r c under = now at hview ⊢
        cases hview with
        | ended hmeets => exact hmeets
    exact .inr ⟨_, _, _, rfl, hpath.trans (.wait (.refl _)), hchain.append ⟨_, hbears, rfl⟩, rfl⟩

/-- Commands that have just been sent on their way have changed nothing. -/
theorem Stands.queued (commands : List (Ref × Command)) (next : List Outcome → Program ω) :
    Stands r c under now now
      (.conversing (commands.map fun (r, command) => ⟨r, command, .queued⟩) next) := by
  refine ⟨fun _ => rfl, fun k _ leg hl => ?_⟩
  rw [List.getElem?_map, Option.map_eq_some_iff] at hl
  obtain ⟨x, -, rfl⟩ := hl
  exact .queued

/-- One of the commands on their way goes on. -/
theorem Stands.step {legs : List Leg} {next : List Outcome → Program ω} {i : Nat} {leg : Leg}
    {state : LegState} (h : Stands r c under v (b.view r c under) (.conversing legs next))
    (hl : legs[i]? = some leg) (hs : b.LegStep m b' ⟨c, i⟩ leg state) :
    Stands r c (under ++ [⟨b, m⟩]) v (b'.view r c (under ++ [⟨b, m⟩]))
      (.conversing (legs.modify i fun l => { l with state }) next) := by
  have hmembers : (legs.modify i fun l => { l with state }).map Leg.member =
      legs.map Leg.member := by
    have hcommands := congrArg (List.map Prod.fst) (commands_modify legs i state)
    rw [List.map_map, List.map_map] at hcommands
    exact hcommands
  refine ⟨fun hno => ?_, fun k hk leg' hl' => ?_⟩
  · have hno' : ∀ x ∈ legs, x.member.number ≠ r.number := by
      intro x hx
      have hmem : x.member ∈ (legs.modify i fun l => { l with state }).map Leg.member :=
        hmembers ▸ List.mem_map_of_mem hx
      obtain ⟨y, hy, hyx⟩ := List.mem_map.1 hmem
      exact hyx ▸ hno y hy
    rw [view_of_other (hno' leg (List.mem_of_getElem? hl)) hs]
    exact h.1 hno'
  · rw [hmembers] at hk
    by_cases hki : k = i
    · subst hki
      rw [List.getElem?_modify_eq, hl] at hl'
      cases hl'
      have hmember : leg.member = r := by
        have hat := hk.1
        rw [List.getElem?_map, hl] at hat
        exact Option.some.inj hat
      exact (h.2 k hk leg hl).step hmember hs
    · rw [List.getElem?_modify_ne _ _ (Ne.symm hki)] at hl'
      have hother : leg.member.number ≠ r.number := fun hn =>
        hki (hk.2 i leg.member (by rw [List.getElem?_map, hl]; rfl) hn).symm
      rw [view_of_other hother hs]
      exact (h.2 k hk leg' hl').mono _

/-- Whoever begins to wait changes nothing. -/
theorem standing_of_wait {w : Wait} {next : w.Answer → Program ω}
    (hp : b.phase? c = some (.running (.wait w next))) (hm : b.step (.run c) = some b') :
    b'.standing = b.standing := by
  cases makes_of_step hm with
  | runs hp' =>
    cases hp.symm.trans hp'
    cases w with
    | enter r turn => simp only [stepProgram, beginWait, standing_setPhase, standing_queueUp]
    | converse commands => simp only [stepProgram, beginWait, standing_setPhase, standing_queueLegs]
    | greet link =>
      simp only [stepProgram, beginWait]
      split
      · rw [standing_setPhase, standing_changeLink b link (by rfl)]
      · rfl

/-- A call that neither acts nor has turned changes nothing. -/
theorem Tracked.still {steps : List Step} {q : Program ω} {p' : Phase ω} (hpath : P.Leads steps q)
    (hchain : Step.Chain (Step.Bears r (Responds under c r.number)) steps v₀ (b.view r c under))
    (hline : d.lineTo? r.number c = none) (hst : b'.standing = b.standing)
    (hleft : p'.left? = some q) (hstands : ∀ now, Stands r c (under ++ [d]) now now p') :
    Tracked P r c v₀ (under ++ [d]) b' p' := by
  refine .inr ⟨steps, q, _, hleft, hpath, chain_mono hchain d, ?_⟩
  rw [view_of_standing hline hst]
  exact hstands _

section

variable {steps : List Step} {q : Program ω}

/-- The call makes its next step. -/
theorem tracked_of_run (hpath : P.Leads steps q)
    (hchain : Step.Chain (Step.Bears r (Responds under c r.number)) steps v₀ (b.view r c under))
    (hb : b.Steady) (hr : b.standing.Genuine r) (hp : b.phase? c = some (.running q))
    (hm : b.step (.run c) = some b') :
    ∃ p', b'.phase? c = some p' ∧ Tracked P r c v₀ (under ++ [⟨b, .run c⟩]) b' p' := by
  obtain ⟨p', refs, hp', had⟩ := advance_of_mover hm hp rfl
  refine ⟨p', hp', ?_⟩
  cases had with
  | @finishes x =>
    cases makes_of_step hm with
    | runs hq =>
      cases hp.symm.trans hq
      exact .still hpath hchain rfl rfl rfl fun _ => rfl
  | @acts a next =>
    cases makes_of_step hm with
    | runs hq =>
      cases hp.symm.trans hq
      exact .next hpath hchain (.act (.refl _)) (bears_act hb hr a rfl rfl)
  | enters | asks => exact .still hpath hchain rfl (standing_of_wait hp hm) rfl fun _ => rfl
  | @converses commands next =>
    refine .of_phaseOf ?_ (chain_mono hchain _) ?_
    · rw [List.map_map]
      exact (List.map_id commands).symm ▸ hpath
    · rw [view_of_standing rfl (standing_of_wait hp hm)]
      exact .queued commands next
  | fails _ => exact .next hpath hchain (.wait (.refl _)) trivial

/-- The call has its turn on a member. -/
theorem tracked_of_turn {q : Ref} {turn : Turn} {next : turn.Answer → Program ω}
    (hpath : P.Leads steps (.wait (.enter q turn) next))
    (hchain : Step.Chain (Step.Bears r (Responds under c r.number)) steps v₀ (b.view r c under))
    (hb : b.Steady) (hp : b.phase? c = some (.entering q turn next)) (hc : b.mover? m = some c)
    (hm : b.step m = some b') (ha : m ≠ .abandon c) :
    ∃ p', b'.phase? c = some p' ∧ Tracked P r c v₀ (under ++ [⟨b, m⟩]) b' p' := by
  have hline : Deed.lineTo? r.number c ⟨b, m⟩ = none :=
    lineTo?_of_event (event?_of_isSilent hp hc trivial) rfl
  obtain ⟨p', refs, hp', had⟩ := advance_of_mover hm hp hc
  refine ⟨p', hp', ?_⟩
  cases had with
  | leaves => exact absurd rfl ha
  | @turns n =>
    cases makes_of_step hm with
    | @turns _ t rest _ _ _ hn hp'' =>
      cases hc.symm.trans (mover?_serve hn)
      cases hp.symm.trans hp''
      -- the member that gives the turn is the one that the call waits for
      obtain ⟨rfl, -⟩ := hb.order.waitsAt hn hp
      exact .next hpath hchain (.wait (.refl _)) (bears_turn
        (hb.genuine_of_wait hp rfl q (List.mem_singleton_self _)) turn hline
        (by rw [standing_setPhase, standing_serveNext]))
    | begins hn hp'' _ =>
      cases hc.symm.trans (mover?_serve hn)
      cases hp.symm.trans hp''

/-- The call has heard who a worker is. -/
theorem tracked_of_hear {l deadline : Nat} {next : Outcome → Program ω}
    (hpath : P.Leads steps (.wait (.greet l) next))
    (hchain : Step.Chain (Step.Bears r (Responds under c r.number)) steps v₀ (b.view r c under))
    (hp : b.phase? c = some (.greeting l deadline next)) (hc : b.mover? m = some c)
    (hm : b.step m = some b') (ha : m ≠ .abandon c) :
    ∃ p', b'.phase? c = some p' ∧ Tracked P r c v₀ (under ++ [⟨b, m⟩]) b' p' := by
  obtain ⟨p', refs, hp', had⟩ := advance_of_mover hm hp hc
  refine ⟨p', hp', ?_⟩
  cases had with
  | leaves => exact absurd rfl ha
  | hears _ => exact .next hpath hchain (.wait (.refl _)) trivial

end

/-- Every move of the call changes the view as its program says. -/
theorem Tracked.step (h : Tracked P r c v₀ under b p) (hb : b.Steady) (hr : b.standing.Genuine r)
    (hp : b.phase? c = some p) (hc : b.mover? m = some c) (hm : b.step m = some b') :
    ∃ p', b'.phase? c = some p' ∧ Tracked P r c v₀ (under ++ [⟨b, m⟩]) b' p' := by
  rcases h with rfl | ⟨steps, q, v, hleft, hpath, hchain, hstands⟩
  · exact ⟨_, abandoned_step hm hp, .inl rfl⟩
  by_cases ha : m = .abandon c
  · subst ha
    exact ⟨_, phase?_of_abandon hm, .inl rfl⟩
  have hno : ∀ k, m ≠ .abandon k := by
    rintro k rfl
    cases hc
    exact ha rfl
  cases p with
  | running q' =>
    cases hleft
    cases hstands
    obtain ⟨rfl, -⟩ := step_of_running hp hc hm hno
    exact tracked_of_run hpath hchain hb hr hp hm
  | entering q' turn next =>
    cases hleft
    cases hstands
    exact tracked_of_turn hpath hchain hb hp hc hm ha
  | conversing legs next =>
    cases hleft
    obtain ⟨i, leg, state, hl, hp', hs⟩ := leg_step hb.order hp hc hm ha
    exact ⟨_, hp', .of_phaseOf (by rwa [commands_modify]) (chain_mono hchain _)
      (hstands.step hl hs)⟩
  | greeting l deadline next =>
    cases hleft
    cases hstands
    exact tracked_of_hear hpath hchain hp hc hm ha
  | finished x => exact absurd hc (not_mover_of_finished hp hm hno)
  | abandoned => cases hleft

/-- In a move of another call nothing is seen of a member that it spares. -/
theorem Tracked.other (h : Tracked P r c v₀ under b p) (hm : b.step m = some b')
    (hc : b.mover? m ≠ some c) (hs : Deed.LeavesAlone ⟨b, m⟩ r) :
    Tracked P r c v₀ (under ++ [⟨b, m⟩]) b' p := by
  rcases h with rfl | ⟨steps, q, v, hleft, hpath, hchain, hstands⟩
  · exact .inl rfl
  · obtain ⟨hentry, hmember⟩ := hs b' hm
    refine .inr ⟨steps, q, v, hleft, hpath, chain_mono hchain _, ?_⟩
    rw [view_snoc (lineTo?_of_not_mover hc) hentry hmember]
    exact hstands.mono _

end

/-- If a member is left to a call from before it is started, then what there is to see of the member
has changed as the steps of the call say, and as the worker of the member has made it change. -/
theorem Service.tracked {asked : Nat → Service} {timeout : Nat} {past under : List (Deed Upshot)}
    {a b : Broker Upshot}
    (ha : Broker.Run (fun _ => Starts asked) (Broker.fresh timeout) past a)
    (hr : Broker.Run (fun _ => Starts asked) a under b) {c : Nat} (hp : a.phase? c = none) {r : Ref}
    (hg : a.standing.Genuine r) (hl : IsLeftTo r c under) :
    b.phase? c = none ∧ b.view r c under = a.view r c [] ∨
      ∃ p, b.phase? c = some p ∧ Tracked (asked c).program r c (a.view r c []) under b p := by
  induction hr with
  | nil => exact .inl ⟨hp, rfl⟩
  | @snoc under b b' m hr hs hm ih =>
    have h := ih fun d hd => hl d (List.mem_append_left _ hd)
    by_cases hc : b.mover? m = some c
    · rcases h with ⟨hnone, hview⟩ | ⟨p, hp, h⟩
      · -- a call that there is not makes a move only by being started
        obtain ⟨program, refs, brings, rfl⟩ := Broker.start_of_mover hm hnone hc
        cases hc
        cases hm
        obtain ⟨-, rfl, -⟩ := hs
        refine .inr ⟨.running _, ?_, .inr ⟨[], _, _, rfl, .refl _, rfl, ?_⟩⟩
        · rw [Broker.phase?, List.getElem?_concat_length]
          rfl
        · rw [← hview]
          exact view_of_standing rfl rfl
      · exact .inr (h.step (steady (ha.append hr)).1 (hr.genuine hg) hp hc hm)
    · have halone : Deed.LeavesAlone ⟨b, m⟩ r :=
        hl _ (List.mem_append_right _ (List.mem_singleton_self _)) hc
      rw [Broker.phase?_step hm hc]
      rcases h with ⟨hnone, hview⟩ | ⟨p, hp, h⟩
      · refine .inl ⟨hnone, ?_⟩
        obtain ⟨hentry, hmember⟩ := halone b' hm
        rw [view_snoc (lineTo?_of_not_mover hc) hentry hmember, hview]
      · exact .inr ⟨p, hp, h.other hm hc halone⟩

/-- The steps of an operation that is over have changed the view of a member that was left to it. -/
theorem Service.chain_of_result {asked : Nat → Service} {timeout : Nat}
    {past under : List (Deed Upshot)} {a b : Broker Upshot}
    (ha : Broker.Run (fun _ => Starts asked) (Broker.fresh timeout) past a)
    (hr : Broker.Run (fun _ => Starts asked) a under b) {c : Nat} {op : Operation} {x : Result}
    {r : Ref} (hop : asked c = .operation op) (hp : a.phase? c = none) (hx : result? c b = some x)
    (hg : a.standing.Genuine r) (hl : IsLeftTo r c under) :
    ∃ steps, op.program.Leads steps (.done x) ∧
      Step.Chain (Step.Bears r (Responds under c r.number)) steps (a.view r c [])
        (b.view r c under) := by
  have hover := phase?_of_result? hx
  obtain ⟨hnone, -⟩ | ⟨p, hp', htracked⟩ := tracked ha hr hp hg hl
  · cases hnone.symm.trans hover
  · cases hp'.symm.trans hover
    obtain hgone | ⟨steps, q, v, hleft, hpath, hchain, hstands⟩ := htracked
    · cases hgone
    · cases hleft
      obtain rfl : b.view r c under = v := hstands
      rw [hop] at hpath
      obtain ⟨y, hop, hy⟩ := hpath.of_map_done
      cases hy
      exact ⟨steps, hop, hchain⟩

end WorkerBroker
