import WorkerBroker.Broker.Registration
import WorkerBroker.Broker.State
import WorkerBroker.Broker.Sweep
/-!
# What calls may do

A program of the broker is a tree of acts and waits, and most trees would be harmful: one that
takes a live member out of the registry, one that gives the same connection to two members. The
programs that the broker runs keep to a discipline, which is stated here and proved of each of
them once. It is a small automaton beside the program.

* `Burden` is what a call has still to see to: a connection that it has to place, a member that it
  has displaced and has to shut, a member that it has retired and has to strike off.
* `Licence` is what a call may do besides, given what it was started for.
* `Burden.Acts` and `Burden.Turns` say which acts and turns are allowed under which burden, and
  what the burden is afterwards.
* `Program.Obeys` says that a program keeps to this, whatever the answers to its acts are.

What the automaton leaves out is the point. No act takes a member out of the registry by name
except for one that the call itself has retired, and no connection is offered twice.
-/

namespace WorkerBroker

/-- Who a worker says it is. -/
abbrev Identity := WorkerKind × UInt32

/-- Who the outcome of a greeting says the worker is. -/
def identity? (o : Outcome) : Option Identity :=
  match Program.whoAnswered o with
  | .ok p => some p
  | .error _ => none

/-! ## Burdens -/

/-- What a call has still to see to. -/
inductive Burden where
  | nothing
  /-- a connection in hand; of whom, if the worker has said so -/
  | carries (link : Nat) (who : Option Identity)
  /-- a connection in hand, and who was registered under the id of its worker -/
  | found (member : Ref) (link : Nat) (who : Identity)
  /-- a connection in hand, announced to a member with a generation -/
  | announced (member : Ref) (generation link : Nat)
  /-- a connection in hand that did not answer when it was asked who it is -/
  | spoilt (link : Nat)
  /-- a member whose place in the registry was taken, still to be shut -/
  | displaced (member : Ref)
  /-- a member that was retired, still to be struck off -/
  | retired (member : Ref)
  /-- a member that is about to be shut -/
  | closing (member : Ref)
  /-- a member that was shut; whether it has been struck off as well -/
  | closed (member : Ref) (struck : Bool)
  deriving DecidableEq

/-- The connection in hand. -/
def Burden.link? : Burden → Option Nat
  | carries l _ | found _ l _ | announced _ _ l | spoilt l => some l
  | _ => none

/-- What a call may do besides seeing to its burden. -/
structure Licence (ω : Type) where
  /-- the member that the call may shut -/
  closes : Option Ref
  /-- the id whose member it may take out of the registry -/
  dismisses : Option UInt32
  /-- it may end with a burden, which then falls to whoever has asked for it -/
  leaves : Bool
  /-- whether a result says that a member was shut and struck off -/
  reports : ω → Bool

/-- The burdens that a call may end with, given its result. -/
def Licence.Ends {ω : Type} (licence : Licence ω) (β : Burden) (result : ω) : Prop :=
  licence.leaves ∨ β = .nothing ∧ licence.reports result = false ∨
    ∃ r, β = .closed r true ∧ licence.reports result = true

/-- The burden after the question who a connection is. -/
def Burden.afterGreeting (link : Nat) : Outcome → Burden
  | .ok raw => .carries link (identity? (.ok raw))
  | .error _ => .spoilt link

/-- What is registered under an id was registered under that id. The primary alone has its id. -/
def Act.Plausible : (a : Act) → a.Answer → Prop
  | .find id, x => ∀ r, x = some r → r.id = id ∧ (r.kind = .primary ↔ id = primaryId)
  | .enrol _ id _, x => ∀ r, x = some r → r.id = id
  | .dismiss kind id, x => ∀ r, x = some r → r.id = id ∧ r.kind = kind
  | .roster, _ | .reinstate _, _ | .strike _, _ | .advance _, _ | .discard _, _ => True

/-- Something plausible can be answered to every act. -/
theorem Act.exists_plausible (a : Act) : ∃ x, a.Plausible x := by
  cases a with
  | find id | enrol kind id link | dismiss kind id => exact ⟨none, nofun⟩
  | roster => exact ⟨[], trivial⟩
  | reinstate r => exact ⟨none, trivial⟩
  | strike r => exact ⟨true, trivial⟩
  | advance r => exact ⟨(0 : Nat), trivial⟩
  | discard l => exact ⟨(), trivial⟩

/-- Every turn comes to something. -/
theorem Turn.exists_answer (t : Turn) : Nonempty t.Answer := by
  cases t with
  | offer g l => exact ⟨Offered.taken⟩
  | shut => exact ⟨()⟩
  | retire | look => exact ⟨true⟩

namespace Burden

/-- Who the connection in hand belongs to, as far as it is settled whom to place it with. -/
def IsFor (β : Burden) (link : Nat) (who : Identity) : Prop :=
  β = carries link (some who) ∨ ∃ r, β = found r link who

/-- The acts that are allowed under a burden, their answers, and the burden afterwards. -/
inductive Acts {ω : Type} (licence : Licence ω) :
    Burden → (a : Act) → a.Answer → Burden → Prop where
  | lookUp {β : Burden} {id : UInt32} {x : Option Ref} (h : ∀ l p, β ≠ carries l (some p)) :
      Acts licence β (.find id) x β
  | miss {l : Nat} {p : Identity} : Acts licence (carries l (some p)) (.find p.2) none
      (carries l (some p))
  | hit {l : Nat} {p : Identity} {r : Ref} : Acts licence (carries l (some p)) (.find p.2) (some r)
      (found r l p)
  | roster {β : Burden} {x : List Ref} : Acts licence β .roster x β
  | enrol {β : Burden} {l : Nat} {p : Identity} (h : β.IsFor l p) :
      Acts licence β (.enrol p.1 p.2 l) none nothing
  | displace {β : Burden} {l : Nat} {p : Identity} {r : Ref} (h : β.IsFor l p) :
      Acts licence β (.enrol p.1 p.2 l) (some r) (displaced r)
  | strike {r : Ref} {x : Bool} : Acts licence (retired r) (.strike r) x nothing
  | strikeClosed {r : Ref} {x : Bool} :
      Acts licence (closed r false) (.strike r) x (closed r true)
  | dismiss {kind : WorkerKind} {id : UInt32} {x : Option Ref} (h : licence.dismisses = some id) :
      Acts licence nothing (.dismiss kind id) x nothing
  | announce {β : Burden} {l : Nat} {r : Ref} {g : Nat}
      (h : licence.leaves ∧ β = carries l (some (r.kind, r.id)) ∨ β = found r l (r.kind, r.id)) :
      Acts licence β (.advance r) g (announced r g l)
  | depose {r : Ref} {g : Nat} : Acts licence (displaced r) (.advance r) g (displaced r)
  | advance {r : Ref} {g : Nat} (h : licence.closes = some r) :
      Acts licence nothing (.advance r) g (closing r)
  | discard {l : Nat} : Acts licence (carries l none) (.discard l) () nothing
  | reject {l : Nat} : Acts licence (spoilt l) (.discard l) () nothing

/-- The turns that are allowed under a burden, their answers, and the burden afterwards. -/
inductive Turns {ω : Type} (licence : Licence ω) :
    Burden → Ref → (t : Turn) → t.Answer → Burden → Prop where
  | taken {r : Ref} {g l : Nat} : Turns licence (announced r g l) r (.offer g l) .taken nothing
  | superseded {r : Ref} {g l : Nat} :
      Turns licence (announced r g l) r (.offer g l) .superseded nothing
  | handedBack {r : Ref} {g l : Nat} :
      Turns licence (announced r g l) r (.offer g l) .handedBack (carries l (some (r.kind, r.id)))
  | shut {r : Ref} : Turns licence (closing r) r .shut () (closed r false)
  | depose {r : Ref} : Turns licence (displaced r) r .shut () nothing
  | retire {r : Ref} : Turns licence nothing r .retire true (retired r)
  | keep {r : Ref} : Turns licence nothing r .retire false nothing
  | look {β : Burden} {r : Ref} {x : Bool} : Turns licence β r .look x β

/-- What is offered is the connection in hand. -/
theorem Turns.link? {ω : Type} {licence : Licence ω} {β β' : Burden} {r : Ref} {g l : Nat}
    {x : Offered} (h : β.Turns licence r (.offer g l) x β') : β.link? = some l := by
  cases h <;> rfl

end Burden

/-! ### Connections in hand -/

/-- The connection that an act places or drops. -/
def Act.link? : Act → Option Nat
  | .enrol _ _ l | .discard l => some l
  | _ => none

/-- The connection in hand after an act. -/
def Act.handAfter (hand : Option Nat) (a : Act) : Option Nat :=
  if a.link?.isSome then none else hand

/-- The connection that is offered in a turn. -/
def Turn.link? : Turn → Option Nat
  | .offer _ l => some l
  | _ => none

/-- The connection in hand after a turn: one that was offered is not, unless it is handed back. -/
def Turn.handAfter (hand : Option Nat) : (t : Turn) → t.Answer → Option Nat
  | .offer _ _, Offered.handedBack => hand
  | .offer _ _, Offered.taken | .offer _ _, Offered.superseded => none
  | .shut, _ | .retire, _ | .look, _ => hand

/-- Nobody takes a connection in hand in an act. -/
theorem Act.of_handAfter {a : Act} {hand : Option Nat} {l : Nat}
    (h : a.handAfter hand = some l) : hand = some l := by
  rw [handAfter] at h
  split at h
  · cases h
  · exact h

/-- Nor in a turn. -/
theorem Turn.of_handAfter {t : Turn} {hand : Option Nat} {x : t.Answer} {l : Nat}
    (h : t.handAfter hand x = some l) : hand = some l := by
  cases t with
  | offer g k =>
    cases x with
    | taken | superseded => cases h
    | handedBack => exact h
  | shut | retire | look => exact h

namespace Burden

variable {ω : Type} {licence : Licence ω} {β β' : Burden}

/-- An act places or drops the connection in hand only, and then it is in hand no more. -/
theorem Acts.hand {a : Act} {x : a.Answer} (h : β.Acts licence a x β') :
    (∀ l ∈ a.link?, β.link? = some l) ∧ β'.link? = a.handAfter β.link? := by
  cases h with
  | enrol hf | displace hf =>
    refine ⟨fun l hl => ?_, rfl⟩
    cases hl
    rcases hf with rfl | ⟨r, rfl⟩ <;> rfl
  | announce hf =>
    refine ⟨nofun, ?_⟩
    rcases hf with ⟨-, rfl⟩ | rfl <;> rfl
  | discard | reject => exact ⟨fun l hl => hl ▸ rfl, rfl⟩
  | _ => exact ⟨nofun, rfl⟩

/-- So does a turn. -/
theorem Turns.hand {r : Ref} {t : Turn} {x : t.Answer} (h : β.Turns licence r t x β') :
    (∀ l ∈ t.link?, β.link? = some l) ∧ β'.link? = t.handAfter β.link? x := by
  cases h with
  | taken | superseded | handedBack => exact ⟨fun l hl => hl ▸ rfl, rfl⟩
  | _ => exact ⟨nofun, rfl⟩

end Burden

/-! ## Programs that keep to it -/

namespace Act

/-- The member that an act is about. -/
def member? : Act → Option Ref
  | reinstate r | strike r | advance r => some r
  | _ => none

end Act

namespace Program

variable {ω : Type}

/-- The program keeps to the discipline under that burden, if it has come across these members. -/
def Obeys (licence : Licence ω) : List Ref → Burden → Program ω → Prop
  | _, b, done x => licence.Ends b x
  | refs, b, act a next => (∀ r ∈ a.member?, r ∈ refs) ∧ ∀ x, a.Plausible x →
      ∃ b', b.Acts licence a x b' ∧ Obeys licence (Broker.refsOf a x ++ refs) b' (next x)
  | refs, b, wait (.enter r turn) next => r ∈ refs ∧
      ∀ x, ∃ b', b.Turns licence r turn x b' ∧ Obeys licence refs b' (next x)
  | refs, b, wait (.converse commands) next => b = .nothing ∧ (∀ c ∈ commands, c.1 ∈ refs) ∧
      ∀ outcomes, Obeys licence refs .nothing (next outcomes)
  | refs, b, wait (.greet link) next => b = .carries link none ∧
      ∀ o, Obeys licence refs (.afterGreeting link o) (next o)

variable {licence : Licence ω} {refs : List Ref}

/-! ### Commands and the ends of members -/

section

variable {k : Unit → Program ω}

theorem obeys_execute {r : Ref} {c : Command} {k : Except Failure Json → Program ω}
    (hr : r ∈ refs) (hk : ∀ x, Obeys licence refs .nothing (k x)) :
    Obeys licence refs .nothing ((execute r c).bind k) := by
  unfold execute
  split
  · exact ⟨rfl, by simpa using hr, fun outcomes => hk _⟩
  · exact hk _

theorem obeys_unregisterDead {r : Ref} {k : Bool → Program ω} (hr : r ∈ refs)
    (hk : ∀ x, Obeys licence refs .nothing (k x)) :
    Obeys licence refs .nothing ((unregisterDead r).bind k) := by
  refine ⟨hr, fun x => ?_⟩
  cases x with
  | true =>
    refine ⟨.retired r, .retire, fun r' h => ?_, fun x _ => ⟨.nothing, .strike, hk true⟩⟩
    cases h
    exact hr
  | false => exact ⟨.nothing, .keep, hk false⟩

/-- A member that was displaced is shut. -/
theorem obeys_close_displaced {r : Ref} (hr : r ∈ refs)
    (hk : Obeys licence refs .nothing (k ())) :
    Obeys licence refs (.displaced r) ((close r).bind k) := by
  refine ⟨fun r' h => ?_, fun x _ => ⟨.displaced r, .depose, hr, fun x => ?_⟩⟩
  · cases h
    exact hr
  · exact ⟨.nothing, .depose, hk⟩

/-- A member is shut by a call that is about it. -/
theorem obeys_close {r : Ref} (hr : r ∈ refs) (hc : licence.closes = some r)
    (hk : Obeys licence refs (.closed r false) (k ())) :
    Obeys licence refs .nothing ((close r).bind k) := by
  refine ⟨fun r' h => ?_, fun x _ => ⟨.closing r, .advance hc, hr, fun x => ?_⟩⟩
  · cases h
    exact hr
  · exact ⟨.closed r false, .shut, hk⟩

/-- A member is shut and struck off if the worker has agreed to end, and not otherwise. -/
theorem obeys_exit {r : Ref} {k : Except Failure Json → Program ω} (hr : r ∈ refs)
    (hc : licence.closes = some r) (hok : ∀ v, Obeys licence refs (.closed r true) (k (.ok v)))
    (herr : ∀ e, Obeys licence refs .nothing (k (.error e))) :
    Obeys licence refs .nothing ((exit r).bind k) := by
  simp only [exit, bind_def, bind_assoc]
  refine obeys_execute hr fun x => ?_
  cases x with
  | ok v =>
    simp only [afterExit, bind_def, bind_assoc]
    refine obeys_close hr hc ⟨fun r' h => ?_, fun x _ => ⟨.closed r true, .strikeClosed, hok v⟩⟩
    cases h
    exact hr
  | error e =>
    simp only [afterExit]
    split
    · simp only [bind_def, bind_assoc]
      exact obeys_unregisterDead hr fun _ => herr e
    · exact herr e

/-! ### Sweeps -/

theorem obeys_prune {ps : List Probe} {k : List Probe → Program ω} (hp : ∀ p ∈ ps, p.1 ∈ refs)
    (hk : ∀ x, Obeys licence refs .nothing (k x)) :
    Obeys licence refs .nothing ((prune ps).bind k) := by
  induction ps generalizing k with
  | nil => exact hk []
  | cons p ps ih =>
    have hps : ∀ q ∈ ps, q.1 ∈ refs := fun q hq => hp q (List.mem_cons_of_mem _ hq)
    simp only [prune]
    split
    · simp only [bind_def, bind_assoc]
      refine obeys_unregisterDead (hp p List.mem_cons_self) fun x => ?_
      cases x with
      | true => exact ih hps hk
      | false =>
        simp only [Bool.false_eq_true, if_false, bind_assoc]
        exact ih hps fun _ => hk _
    · simp only [bind_def, bind_assoc]
      exact ih hps fun _ => hk _

theorem obeys_sweep {rs : List Ref} {k : List Probe → Program ω} (hrs : rs ⊆ refs)
    (hk : ∀ x, Obeys licence refs .nothing (k x)) :
    Obeys licence refs .nothing ((sweep rs).bind k) := by
  refine ⟨rfl, ?_, fun outcomes => ?_⟩
  · intro c hc
    obtain ⟨r, hr, rfl⟩ := List.mem_map.1 hc
    exact hrs hr
  · refine obeys_prune (fun p hp => ?_) hk
    obtain ⟨q, hq, rfl⟩ := List.mem_map.1 hp
    exact hrs (List.of_mem_zip hq).1

theorem obeys_roster {k : List Ref → Program ω}
    (hk : ∀ rs, Obeys licence (rs ++ refs) .nothing (k rs)) :
    Obeys licence refs .nothing (roster.bind k) :=
  ⟨nofun, fun rs _ => ⟨.nothing, .roster, hk rs⟩⟩

theorem obeys_listing {k : List Entry → Program ω}
    (hk : ∀ refs x, Obeys licence refs .nothing (k x)) :
    Obeys licence refs .nothing (listing.bind k) := by
  simp only [listing, bind_def, bind_assoc]
  refine obeys_roster fun rs => obeys_sweep ?_ fun x => obeys_roster fun rs => hk _ _
  exact fun r hr => List.mem_append_left _ (List.mem_filter.1 hr).1

theorem obeys_cpuUsage {k : List Usage → Program ω}
    (hk : ∀ refs x, Obeys licence refs .nothing (k x)) :
    Obeys licence refs .nothing (cpuUsage.bind k) := by
  simp only [cpuUsage, bind_def, bind_assoc]
  exact obeys_roster fun rs => obeys_sweep (List.subset_append_left ..) fun x => hk _ _

theorem obeys_cpuUnused {layout : List Socket} {master : Option UInt32}
    {k : List UnusedLcores → Program ω} (hk : ∀ refs x, Obeys licence refs .nothing (k x)) :
    Obeys licence refs .nothing ((cpuUnused layout master).bind k) := by
  simp only [cpuUnused, bind_def, bind_assoc]
  exact obeys_cpuUsage fun refs x => hk refs _

end

/-! ### Registrations -/

section

variable {k : Unit → Program ω} {l : Nat}

theorem obeys_install {b : Burden} {p : Identity} (h : b.IsFor l p)
    (hk : ∀ refs, Obeys licence refs .nothing (k ())) :
    Obeys licence refs b ((install p.1 p.2 l).bind k) := by
  simp only [install, bind_def, bind_assoc]
  refine ⟨nofun, fun x _ => ?_⟩
  cases x with
  | none => exact ⟨.nothing, .enrol h, hk _⟩
  | some r =>
    exact ⟨.displaced r, .displace h, obeys_close_displaced List.mem_cons_self (hk _)⟩

/-- A connection is announced to a member and offered to it. -/
theorem obeys_replaceConnection {b : Burden} {r : Ref} {k : Offered → Program ω} (hr : r ∈ refs)
    (h : licence.leaves ∧ b = .carries l (some (r.kind, r.id)) ∨ b = .found r l (r.kind, r.id))
    (hk : ∀ x, x ≠ .handedBack → Obeys licence refs .nothing (k x))
    (hb : Obeys licence refs (.carries l (some (r.kind, r.id))) (k .handedBack)) :
    Obeys licence refs b ((replaceConnection r l).bind k) := by
  refine ⟨fun r' h => ?_, fun g _ => ⟨.announced r g l, .announce h, hr, fun x => ?_⟩⟩
  · cases h
    exact hr
  · cases x with
    | taken => exact ⟨.nothing, .taken, hk _ nofun⟩
    | superseded => exact ⟨.nothing, .superseded, hk _ nofun⟩
    | handedBack => exact ⟨_, .handedBack, hb⟩

theorem obeys_reconnect {r : Ref} {kind : WorkerKind} {id : UInt32} (hr : r ∈ refs)
    (hkind : r.kind = kind) (hid : r.id = id) (hk : ∀ refs, Obeys licence refs .nothing (k ())) :
    Obeys licence refs (.found r l (kind, id)) ((reconnect r kind id l).bind k) := by
  subst hkind hid
  simp only [reconnect, bind_def, bind_assoc]
  refine obeys_replaceConnection hr (.inr rfl) (fun x hx => ?_) ?_
  · cases x with
    | taken => exact hk _
    | superseded => exact hk _
    | handedBack => exact absurd rfl hx
  · exact obeys_install (.inl rfl) hk

/-- Who is registered under the id of the worker decides whom its connection is placed with. -/
theorem obeys_find {p : Identity} {k : Option Ref → Program ω}
    (hn : Obeys licence refs (.carries l (some p)) (k none))
    (hs : ∀ r, r.id = p.2 → (r.kind = .primary ↔ p.2 = primaryId) →
      Obeys licence (r :: refs) (.found r l p) (k (some r))) :
    Obeys licence refs (.carries l (some p)) ((find p.2).bind k) := by
  refine ⟨nofun, fun x hx => ?_⟩
  cases x with
  | none => exact ⟨_, .miss, hn⟩
  | some r => exact ⟨_, .hit, hs r (hx r rfl).1 (hx r rfl).2⟩

theorem obeys_greet {k : Outcome → Program ω}
    (hk : ∀ o, Obeys licence refs (.afterGreeting l o) (k o)) :
    Obeys licence refs (.carries l none) ((greet l).bind k) :=
  ⟨rfl, hk⟩

theorem obeys_registerPrimary (hk : ∀ refs, Obeys licence refs .nothing (k ())) :
    Obeys licence refs (.carries l (some (.primary, primaryId))) ((registerPrimary l).bind k) := by
  simp only [registerPrimary, bind_def, bind_assoc]
  refine obeys_find (obeys_install (.inl rfl) hk) fun r hid hkind => ?_
  exact obeys_reconnect List.mem_cons_self (hkind.2 rfl) hid hk

theorem obeys_registerAs {p : Identity} (hk : ∀ refs, Obeys licence refs .nothing (k ())) :
    Obeys licence refs (.carries l (some p)) ((registerAs p.1 p.2 l).bind k) := by
  simp only [registerAs, bind_def, bind_assoc]
  refine obeys_find (obeys_install (.inl rfl) hk) fun r hid _ => ?_
  by_cases hkind : r.kind = p.1
  · simp only [if_pos hkind]
    exact obeys_reconnect List.mem_cons_self hkind hid hk
  · simp only [if_neg hkind]
    exact obeys_install (.inr ⟨r, rfl⟩) hk

theorem obeys_registerSecondary (hk : ∀ refs, Obeys licence refs .nothing (k ())) :
    Obeys licence refs (.carries l none) ((registerSecondary l).bind k) := by
  simp only [registerSecondary, bind_def, bind_assoc]
  refine obeys_greet fun o => ?_
  cases o with
  | error s => exact ⟨nofun, fun x _ => ⟨.nothing, .reject, hk _⟩⟩
  | ok raw =>
    simp only [Burden.afterGreeting, identity?]
    rcases whoAnswered (.ok raw) with e | p
    · exact ⟨nofun, fun x _ => ⟨.nothing, .discard, hk _⟩⟩
    · exact obeys_registerAs hk

end

end Program

end WorkerBroker
