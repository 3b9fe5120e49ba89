import WorkerBroker.Proofs.Services
/-!
# Announcements

Whoever advances the generation of a member has announced a connection to it, or that it will be
shut, and goes on to a turn on the member in which this is done (`Program.Follows`). In the meantime
the connection of the member is not current: whoever talks on it is told that it was replaced, and
whoever looks whether the member has lost it finds that it has not.

`Service.isSettled` says that there are no other times like this. The connection of a member is
current unless somebody has announced something to the member and has not come to an end: its turn
has not come yet, or it was given up before it came, and then nobody takes the turn in its place.
-/

namespace WorkerBroker

/-! ## Programs that keep what they announce -/

/-- The turn that the announcement of a generation calls for. -/
def Turn.Keeps (g : Nat) : Turn → Prop
  | .offer g' _ => g' = g
  | .shut => True
  | .retire | .look => False

/-- An announcement is followed by the turn that it calls for. -/
def Act.IsKept {ω : Type} : (a : Act) → (a.Answer → Program ω) → Prop
  | .advance r, next => ∀ g : Nat, ∃ turn after, next g = .wait (.enter r turn) after ∧ turn.Keeps g
  | _, _ => True

namespace Program

variable {ω α : Type}

/-- The program keeps all that it announces. -/
def Follows : Program ω → Prop
  | done _ => True
  | act a next => a.IsKept next ∧ ∀ x, (next x).Follows
  | wait _ next => ∀ x, (next x).Follows

theorem Follows.bind {p : Program α} {f : α → Program ω} (h : p.Follows) (hf : ∀ x, (f x).Follows) :
    (p.bind f).Follows := by
  induction p with
  | done x => exact hf x
  | act a next ih =>
    refine ⟨?_, fun x => ih x (h.2 x)⟩
    have hkept := h.1
    cases a with
    | advance r =>
      intro g
      obtain ⟨turn, after, hnext, hturn⟩ := hkept g
      refine ⟨turn, fun x => (after x).bind f, ?_, hturn⟩
      beta_reduce
      rw [hnext]
      rfl
    | _ => trivial
  | wait w next ih => exact fun x => ih x (h x)

/-- Whatever is left of the program keeps what it announces. -/
theorem Follows.leads {p q : Program ω} {steps : List Step} (h : p.Follows) (hl : p.Leads steps q) :
    q.Follows := by
  induction hl with
  | refl p => exact h
  | act _ ih => exact ih (h.2 _)
  | wait _ ih => exact ih (h _)

/-! ### The programs of services -/

theorem follows_close (r : Ref) : (close r).Follows :=
  ⟨fun _ => ⟨.shut, _, rfl, trivial⟩, fun _ _ => trivial⟩

theorem follows_replaceConnection (r : Ref) (link : Nat) : (replaceConnection r link).Follows :=
  ⟨fun g => ⟨.offer g link, _, rfl, rfl⟩, fun _ _ => trivial⟩

theorem follows_install (kind : WorkerKind) (id : UInt32) (link : Nat) :
    (install kind id link).Follows := by
  refine ⟨trivial, fun displaced => ?_⟩
  cases displaced with
  | some r => exact follows_close r
  | none => trivial

theorem follows_reconnect (r : Ref) (kind : WorkerKind) (id : UInt32) (link : Nat) :
    (reconnect r kind id link).Follows := by
  refine (follows_replaceConnection r link).bind fun offered => ?_
  cases offered with
  | handedBack => exact follows_install kind id link
  | taken | superseded => trivial

theorem follows_registerPrimary (link : Nat) : (registerPrimary link).Follows := by
  refine ⟨trivial, fun found => ?_⟩
  cases found with
  | some r => exact follows_reconnect r .primary primaryId link
  | none => exact follows_install .primary primaryId link

theorem follows_registerSecondary (link : Nat) : (registerSecondary link).Follows := by
  rw [registerSecondary, bind_def]
  intro (o : Outcome)
  change Follows ((done o : Program Outcome).bind _)
  rw [done_bind]
  rcases whoAnswered o with e | ⟨kind, id⟩
  · exact ⟨trivial, fun _ => trivial⟩
  · refine ⟨trivial, fun found => ?_⟩
    cases found with
    | some r =>
      change Program.Follows (if _ then _ else _)
      split
      · exact follows_reconnect r kind id link
      · exact follows_install kind id link
    | none => exact follows_install kind id link

theorem follows_unregisterDead (r : Ref) : (unregisterDead r).Follows := by
  intro x
  cases x with
  | true => exact ⟨trivial, fun _ => trivial⟩
  | false => trivial

theorem follows_prune (ps : List Probe) : (prune ps).Follows := by
  induction ps with
  | nil => trivial
  | cons p ps ih =>
    have hrest : ((prune ps).bind fun qs => done (p :: qs)).Follows := ih.bind fun _ => trivial
    simp only [prune]
    split
    · refine (follows_unregisterDead p.1).bind fun x => ?_
      cases x with
      | true => exact ih
      | false => exact hrest
    · exact hrest

theorem follows_sweep (refs : List Ref) : (sweep refs).Follows := fun _ => follows_prune _

theorem follows_roster : roster.Follows := ⟨trivial, fun _ => trivial⟩

theorem follows_listing : listing.Follows :=
  follows_roster.bind fun _ => (follows_sweep _).bind fun _ => follows_roster.bind fun _ => trivial

theorem follows_cpuUsage : cpuUsage.Follows :=
  follows_roster.bind fun _ => (follows_sweep _).bind fun _ => trivial

theorem follows_cpuUnused (layout : List Socket) (master : Option UInt32) :
    (cpuUnused layout master).Follows :=
  follows_cpuUsage.bind fun _ => trivial

theorem follows_execute (r : Ref) (command : Command) : (execute r command).Follows := by
  unfold execute
  split
  · exact fun _ => trivial
  · trivial

theorem follows_afterExit (r : Ref) (answer : Except Failure Json) :
    (afterExit r answer).Follows := by
  cases answer with
  | ok value => exact (follows_close r).bind fun _ => ⟨trivial, fun _ => trivial⟩
  | error e =>
    simp only [afterExit]
    split
    · exact (follows_unregisterDead r).bind fun _ => trivial
    · trivial

theorem follows_exit (r : Ref) : (exit r).Follows :=
  (follows_execute r .exit).bind fun answer => (follows_afterExit r answer).bind fun _ => trivial

theorem follows_primary : Program.primary.Follows :=
  ⟨trivial, fun found => by cases found <;> trivial⟩

theorem follows_secondary (kind : WorkerKind) (id : UInt32) : (secondary kind id).Follows := by
  refine ⟨trivial, fun found => ?_⟩
  cases found with
  | none => trivial
  | some r =>
    change Program.Follows (if _ then _ else _)
    split <;> trivial

end Program

namespace Gateway

open Program

theorem follows_withMember {a : Address} {f : Ref → Program Response} (h : ∀ r, (f r).Follows) :
    (withMember a f).Follows := by
  have hresolve : a.resolve.Follows := by
    cases a with
    | primary => exact follows_primary
    | secondary kind id =>
      simp only [Address.resolve]
      split
      · exact follows_secondary kind _
      · trivial
  refine hresolve.bind fun found => ?_
  cases found with
  | ok r => exact h r
  | error e => trivial

theorem follows_send (a : Address) (command : WorkerKind → Except Failure Command) :
    (send a command).Follows := by
  refine follows_withMember fun r => ?_
  split
  · exact (follows_execute r _).bind fun _ => trivial
  · trivial

theorem follows_serve (a : Address) (bytes : Bytes) (action : Action) :
    (serve a bytes action).Follows := by
  cases action with
  | display => exact follows_withMember fun r => (follows_execute r _).bind fun _ => trivial
  | exit => exact follows_withMember fun r => (follows_exit r).bind fun _ => trivial
  | clear | resetPatches | stopComponent name =>
    rw [serve]
    exact follows_send a _
  | order o =>
    simp only [serve, carryOut]
    split
    · trivial
    · split
      · trivial
      · split
        · trivial
        · exact follows_send a _

theorem follows_perform (layout : List Socket) (request : Request) (e : Errand) :
    (perform layout request e).Follows := by
  cases e with
  | listing => exact follows_listing.bind fun _ => trivial
  | cpuUsage => exact follows_cpuUsage.bind fun _ => trivial
  | cpuLayout => trivial
  | cpuUnused =>
    simp only [perform]
    split
    · exact (follows_cpuUnused layout _).bind fun _ => trivial
    · trivial
  | worker address action => exact follows_serve address request.body action

theorem follows_handle (layout : List Socket) (request : Request) :
    (handle layout request).Follows := by
  simp only [handle]
  split
  · trivial
  · split
    · trivial
    · split
      · trivial
      · refine Follows.bind ?_ fun _ => trivial
        simp only [attend]
        split
        · exact follows_perform layout request _
        · trivial

end Gateway

/-- Every operation keeps what it announces. -/
theorem Operation.follows (op : Operation) : op.program.Follows := by
  cases op with
  | registerPrimary link => exact (Program.follows_registerPrimary link).bind fun _ => trivial
  | registerSecondary link => exact (Program.follows_registerSecondary link).bind fun _ => trivial
  | listing => exact Program.follows_listing.bind fun _ => trivial
  | cpuUsage => exact Program.follows_cpuUsage.bind fun _ => trivial
  | cpuUnused layout master => exact (Program.follows_cpuUnused layout master).bind fun _ => trivial
  | execute r command => exact (Program.follows_execute r command).bind fun _ => trivial
  | exit r => exact (Program.follows_exit r).bind fun _ => trivial
  | terminate kind id => exact ⟨trivial, fun _ => trivial⟩
  | replaceConnection r link =>
    exact (Program.follows_replaceConnection r link).bind fun _ => trivial
  | close r => exact (Program.follows_close r).bind fun _ => trivial
  | retire r => exact fun _ => trivial

/-- So does all that is done for services. -/
theorem Service.follows (s : Service) : s.program.Follows := by
  cases s with
  | operation op => exact op.follows.bind fun _ => trivial
  | primary => exact Program.follows_primary.bind fun _ => trivial
  | secondary kind id => exact (Program.follows_secondary kind id).bind fun _ => trivial
  | request layout request => exact (Gateway.follows_handle layout request).bind fun _ => trivial

/-! ## Members to whom nothing is announced -/

namespace Standing

/-- The connection of a member is current, if it has one. -/
def IsSettled (s : Standing) (n : Nat) : Prop :=
  ∀ ch, (s.member n).channel = some ch → ch.generation = (s.member n).generation

instance (s : Standing) (n : Nat) : Decidable (s.IsSettled n) :=
  decidable_of_iff ((s.member n).channel.all fun ch => ch.generation = (s.member n).generation) (by
    rw [IsSettled, Option.all_eq_true]
    simp)

theorem isSettled_of_none {s : Standing} {n : Nat} (h : (s.member n).channel = none) :
    s.IsSettled n := by
  intro ch hch
  cases h.symm.trans hch

theorem IsSettled.disconnect {s : Standing} {n : Nat} (h : s.IsSettled n) (k : Nat) :
    (s.disconnect k).IsSettled n := by
  by_cases hk : n = k
  · refine isSettled_of_none ?_
    rw [hk, member_disconnect_self]
  · rwa [IsSettled, member_disconnect_ne s hk]

end Standing

/-- The call that is given up in this move while it waits for a turn on a member. -/
def Deed.quitter? {ω : Type} (r : Ref) (d : Deed ω) : Option Nat :=
  match d.move with
  | .abandon c =>
    match d.before.left? c with
    | some (.wait (.enter r' _) _) => if r' = r then some c else none
    | _ => none
  | _ => none

/-- The calls that were given up while they waited for a turn on a member. -/
def quitters {ω : Type} (r : Ref) (past : List (Deed ω)) : List Nat :=
  past.filterMap (Deed.quitter? r)

namespace Broker

variable {ω : Type} {b b' : Broker ω} {m : Move ω} {n c k : Nat} {r : Ref} {past : List (Deed ω)}

/-- A call has announced something to a member and owes it the turn: it waits for the turn and
nothing has been announced to the member since, or it was given up before it had the turn. -/
def Owes (b : Broker ω) (past : List (Deed ω)) (r : Ref) (k : Nat) : Prop :=
  k ∈ advancers r past ∧ (k ∈ quitters r past ∨
    ∃ turn next, b.left? k = some (.wait (.enter r turn) next) ∧
      turn.Keeps (b.standing.member r.number).generation)

/-- Nothing is announced to a member of this number. -/
def AnnouncesNothing (b : Broker ω) (m : Move ω) (n : Nat) : Prop :=
  ∀ r : Ref, r.number = n → Deed.advancer? r ⟨b, m⟩ = none

theorem mem_advancers (h : k ∈ advancers r past) (d : Deed ω) :
    k ∈ advancers r (past ++ [d]) := by
  rw [advancers_snoc]
  exact List.mem_append_left _ h

theorem quitters_snoc (r : Ref) (past : List (Deed ω)) (d : Deed ω) :
    quitters r (past ++ [d]) = quitters r past ++ (d.quitter? r).toList :=
  filterMap_snoc _ past d

/-! ### Acts and turns -/

theorem isSettled_act {a : Act} (h : b.standing.IsSettled n)
    (ha : ∀ r, a = .advance r → r.number ≠ n) : (b.act a).2.standing.IsSettled n := by
  intro ch hch
  rcases b.member_act ha with hsame | ⟨kind, id, l, -, hnew⟩
  · rw [hsame] at hch ⊢
    exact h ch hch
  · rw [hnew] at hch ⊢
    cases hch
    rfl

/-- A member is settled after a turn if it was settled before, or if the turn was called for by what
was announced to it last. -/
theorem isSettled_take (hs : b.standing.Sound fun _ => .nothing) (k : Nat) (turn : Turn)
    (h : b.standing.IsSettled n ∨ k = n ∧ turn.Keeps (b.standing.member n).generation) :
    (b.take k turn).2.standing.IsSettled n := by
  have hother : k ≠ n → b.standing.IsSettled n := fun hk => h.resolve_right fun h => hk h.1
  cases turn with
  | offer g l =>
    rcases ha : (b.take k (.offer g l)).1 with _ | _ | _
    · obtain ⟨hret, hg, e⟩ := take_offer_taken ha
      rw [e]
      by_cases hk : k = n
      · subst hk
        have hlt : k < b.standing.members.length := by
          by_contra hge
          have hnobody := Standing.member_of_length_le (Nat.not_lt.1 hge)
          rw [← retired_standing, hnobody] at hret
          cases hret
        intro ch hch
        rw [Standing.member_change_self (by simpa using hlt)] at hch ⊢
        cases hch
        rw [Standing.generation_disconnect, generation_standing]
        exact hg.symm
      · have hsettled := (hother hk).disconnect k
        rwa [Standing.IsSettled, Standing.member_change_ne _ _ (Ne.symm hk)]
    · rw [(take_offer_superseded ha).2.2, standing_hangUp]
      refine h.resolve_right ?_
      rintro ⟨rfl, hg⟩
      rw [generation_standing] at hg
      exact (take_offer_superseded ha).2.1 hg.symm
    · rw [(take_offer_handedBack ha).2]
      refine h.elim id ?_
      rintro ⟨rfl, -⟩
      refine Standing.isSettled_of_none (hs.vacant k ?_)
      rw [retired_standing]
      exact (take_offer_handedBack ha).1
  | shut =>
    rw [standing_shut]
    by_cases hk : k = n
    · subst hk
      refine Standing.isSettled_of_none ?_
      rw [Standing.channel_change (by intro; rfl), Standing.member_disconnect_self]
    · have hsettled := (hother hk).disconnect k
      rwa [Standing.IsSettled, Standing.member_change_ne _ _ (Ne.symm hk)]
  | retire =>
    have hsettled : b.standing.IsSettled n := h.resolve_right fun h => h.2
    rcases ha : (b.take k .retire).1 with _ | _
    · rw [(take_retire_false ha).2]
      exact hsettled
    · intro ch hch
      rw [generation_take]
      rw [(take_retire_true ha).2, Standing.channel_change (by intro; rfl)] at hch
      exact hsettled ch hch
  | look => exact h.resolve_right fun h => h.2

/-! ### Moves -/

/-- An act in which nothing is announced to a member advances no generation of its. -/
theorem AnnouncesNothing.ne {a : Act} {next : a.Answer → Program ω}
    (hp : b.phase? c = some (.running (.act a next))) (hno : b.AnnouncesNothing (.run c) n) :
    ∀ r, a = .advance r → r.number ≠ n := by
  rintro r rfl hr
  cases (hno r hr).symm.trans (Deed.advancer?_eq_some.2 ⟨rfl, next, hp⟩)

/-- A move in which nothing is announced to a member leaves it settled. -/
theorem isSettled_step (hs : b.standing.Sound fun _ => .nothing) (h : b.standing.IsSettled n)
    (hm : b.step m = some b') (hno : b.AnnouncesNothing m n) :
    b'.standing.IsSettled n := by
  have hshift := standing_step hm
  generalize b'.standing = s at hshift
  cases hshift with
  | still | accepted => exact h
  | acted hp => exact isSettled_act h (hno.ne hp)
  | turned turn => exact isSettled_take hs _ turn (.inl h)
  | cut k => exact h.disconnect k

/-- A generation advances by announcements only. -/
theorem generation_step (hm : b.step m = some b') (hno : b.AnnouncesNothing m n) :
    (b'.standing.member n).generation = (b.standing.member n).generation := by
  have hshift := standing_step hm
  generalize b'.standing = s at hshift
  cases hshift with
  | still | accepted => rfl
  | acted hp =>
    rcases b.member_act (hno.ne hp) with hsame | ⟨kind, id, l, hlast, hnew⟩
    · rw [hsame]
    · rw [hnew, Standing.member_of_length_le (Nat.le_of_eq hlast.symm)]
      rfl
  | turned turn => exact generation_take b _ turn n
  | cut k => exact Standing.generation_disconnect _ k n

/-- Whoever announces something owes it from then on. -/
theorem owes_of_advancer? (hb : b.Steady) (hfollows : ∀ q, b.left? c = some q → q.Follows)
    (hm : b.step m = some b') (ha : Deed.advancer? r ⟨b, m⟩ = some c) :
    b'.Owes (past ++ [⟨b, m⟩]) r c := by
  obtain ⟨rfl, next, hp⟩ := Deed.advancer?_eq_some.1 ha
  obtain ⟨refs, hreg, hgenuine⟩ := hb.of_phase hp rfl
  have hr : b.standing.Genuine r := hgenuine r (hreg.2.1 r rfl)
  obtain ⟨turn, after, hnext, hkeeps⟩ :=
    (hfollows _ (left?_of_phase hp)).1 ((b.member r.number).generation + 1)
  refine ⟨?_, .inr ⟨turn, after, ?_, ?_⟩⟩
  · rw [advancers_snoc, ha]
    exact List.mem_append_right _ (List.mem_singleton_self c)
  · obtain ⟨p', refs', hp', hadvance⟩ := advance_of_mover hm hp rfl
    cases hadvance with
    | acts =>
      rw [left?_of_phase hp', Phase.left?, ← hnext]
      rfl
  · cases makes_of_step hm with
    | runs hp' =>
      cases hp.symm.trans hp'
      simp only [stepProgram, standing_setPhase, standing_meet, standing_advance]
      rwa [Standing.member_change_self hr.1, generation_standing]

/-- The turn that was called for settles the member. -/
theorem isSettled_of_turn {r : Ref} {turn : Turn} {next : turn.Answer → Program ω} {i : Nat}
    (hb : b.Steady) (hp : b.phase? k = some (.entering r turn next))
    (hc : b.mover? (.serve i) = some k) (hm : b.step (.serve i) = some b')
    (hkeeps : turn.Keeps (b.standing.member r.number).generation) :
    b'.standing.IsSettled r.number := by
  cases makes_of_step hm with
  | @turns _ t rest _ _ _ hn hp' =>
    cases hc.symm.trans (mover?_serve hn)
    cases hp.symm.trans hp'
    -- the member that gives the turn is the one that the call waits for
    obtain ⟨rfl, -⟩ := hb.order.waitsAt hn hp
    rw [standing_setPhase, standing_serveNext]
    exact isSettled_take hb.sound _ turn (.inr ⟨rfl, hkeeps⟩)
  | begins hn hp' _ =>
    cases hc.symm.trans (mover?_serve hn)
    cases hp.symm.trans hp'

/-- Whoever owes a member a turn owes it still, or the member is settled. -/
theorem Owes.step (h : b.Owes past r k) (hb : b.Steady) (hm : b.step m = some b')
    (hno : b.AnnouncesNothing m r.number) :
    b'.standing.IsSettled r.number ∨ b'.Owes (past ++ [⟨b, m⟩]) r k := by
  obtain ⟨hk, hgone | ⟨turn, next, hleft, hkeeps⟩⟩ := h
  · refine .inr ⟨mem_advancers hk _, .inl ?_⟩
    rw [quitters_snoc]
    exact List.mem_append_left _ hgone
  by_cases hc : b.mover? m = some k
  · obtain ⟨p, hp, hleft⟩ := Option.bind_eq_some_iff.1 hleft
    obtain ⟨p', refs, hp', hadvance⟩ := advance_of_mover hm hp hc
    cases hadvance with
    | enters =>
      cases hleft
      refine .inr ⟨mem_advancers hk _, .inr ⟨turn, next, left?_of_phase hp', ?_⟩⟩
      rwa [generation_step hm hno]
    | turns =>
      cases hleft
      exact .inl (isSettled_of_turn hb hp hc hm hkeeps)
    | leaves =>
      refine .inr ⟨mem_advancers hk _, .inl ?_⟩
      have hquits : Deed.quitter? r ⟨b, .abandon k⟩ = some k := by
        simp [Deed.quitter?, left?, hp, hleft]
      rw [quitters_snoc, hquits]
      exact List.mem_append_right _ (List.mem_singleton_self k)
    | goes _ _ | finishes | acts | converses | asks | fails _ | hears _ => cases hleft
  · refine .inr ⟨mem_advancers hk _, .inr ⟨turn, next, ?_, ?_⟩⟩
    · rwa [left?, phase?_step hm hc]
    · rwa [generation_step hm hno]

end Broker

/-! ## Services -/

namespace Service

open Broker

variable {asked : Nat → Service} {timeout : Nat} {past : List (Deed Upshot)} {b : Broker Upshot}
  {r : Ref}

/-- A member is settled at any time in a run of services, or somebody owes it a turn. -/
theorem isSettled_or_owes (hr : Run (fun _ => Starts asked) (fresh timeout) past b) (n : Nat) :
    b.standing.IsSettled n ∨ ∃ r : Ref, r.number = n ∧ ∃ k, b.Owes past r k := by
  induction hr with
  | nil => exact .inl nofun
  | @snoc past b b' m hr hs hm ih =>
    have hb := (steady hr).1
    by_cases hno : b.AnnouncesNothing m n
    · obtain hsettled | ⟨r, rfl, k, howes⟩ := ih
      · exact .inl (isSettled_step hb.sound hsettled hm hno)
      · exact (howes.step hb hm hno).imp id fun h => ⟨r, rfl, k, h⟩
    · simp only [AnnouncesNothing, not_forall] at hno
      obtain ⟨r, hn, hsome⟩ := hno
      obtain ⟨c, hc⟩ := Option.ne_none_iff_exists'.1 hsome
      refine .inr ⟨r, hn, c, owes_of_advancer? hb (fun q hq => ?_) hm hc⟩
      obtain ⟨steps, q', hq', hpath, -⟩ := path hr hq
      cases hq.symm.trans hq'
      exact (follows (asked c)).leads hpath

/-- Whoever something was announced to is a member that was made. -/
theorem genuine_of_advancers (hr : Run (fun _ => Starts asked) (fresh timeout) past b) {k : Nat}
    (hk : k ∈ advancers r past) : b.standing.Genuine r := by
  obtain ⟨d, hd, hadvances⟩ := List.mem_filterMap.1 hk
  obtain ⟨-, next, hp⟩ := Deed.advancer?_eq_some.1 hadvances
  obtain ⟨refs, hregular, hgenuine⟩ := ((steady hr).2 d hd).of_phase hp rfl
  obtain ⟨past₁, past₂, rfl, -, hrest⟩ := hr.cut hd
  exact hrest.genuine (hgenuine r (hregular.2.1 r rfl))

/-- A member is settled if all that have announced something to it are over, and none of them was
given up while it waited for its turn. -/
theorem isSettled (hr : Run (fun _ => Starts asked) (fresh timeout) past b)
    (hg : b.standing.Genuine r)
    (h : ∀ k ∈ advancers r past, ¬b.IsActive k ∧ k ∉ quitters r past) :
    b.standing.IsSettled r.number := by
  refine (isSettled_or_owes hr r.number).resolve_right ?_
  rintro ⟨r', hn, k, hk, howes⟩
  obtain rfl := (genuine_of_advancers hr hk).ext hg hn
  obtain hgone | ⟨turn, next, hleft, -⟩ := howes
  · exact (h k hk).2 hgone
  · obtain ⟨x, hx⟩ := eq_done_of_not_isActive (h k hk).1 hleft
    cases hx

end Service

end WorkerBroker
