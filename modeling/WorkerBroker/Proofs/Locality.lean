import WorkerBroker.Proofs.Hands
/-!
# What is done at one id

Each worker has an id, and most of what is asked of the broker is about one id. A program is about an
id (`Program.IsAbout`) if it registers, displaces and turns to nobody but members that have it. This
is seen from the program alone: what it finds under the id has the id, and what a fresh connection
says it is decides only under which id it is registered.

What such a program does is done at that id (`Broker.Apart`): under every other id the same member is
registered, and each member with another id stays what it is, together with its queue, and so does
its connection, with all that has arrived on it and all that was written. `Broker.apart_of_mover`
says so of one move of a call, and `Broker.Apart.trans` carries it along a run.
-/

namespace WorkerBroker

/-! ## Programs about one id -/

/-- An act that registers, displaces or changes nobody but members of an id. -/
def Act.IsAbout (i : UInt32) : Act → Prop
  | .enrol _ id _ | .dismiss _ id => id = i
  | .reinstate r | .strike r | .advance r => r.id = i
  | .find _ | .roster | .discard _ => True

/-- A wait for nobody but members of an id, or for a fresh connection. -/
def Wait.IsAbout (i : UInt32) : Wait → Prop
  | .enter r _ => r.id = i
  | .converse commands => ∀ q ∈ commands, q.1.id = i
  | .greet _ => True

/-- What a fresh connection is heard to say is of this kind. -/
def Wait.Hears (heard : Outcome → Prop) : (w : Wait) → w.Answer → Prop
  | .greet _, o => heard o
  | .enter _ _, _ | .converse _, _ => True

/-- An answer that there may be, when fresh connections are heard to say this. -/
def Step.Hears (heard : Outcome → Prop) : Step → Prop
  | .act a x => a.Plausible x
  | .wait w x => w.Hears heard x

namespace Program

variable {ω α : Type} {i : UInt32} {heard : Outcome → Prop}

/-- The program is about members of an id only, if fresh connections are heard to say this. -/
def IsAbout (i : UInt32) (heard : Outcome → Prop) : Program ω → Prop
  | done _ => True
  | act a next => a.IsAbout i ∧ ∀ x, a.Plausible x → (next x).IsAbout i heard
  | wait w next => w.IsAbout i ∧ ∀ x, w.Hears heard x → (next x).IsAbout i heard

theorem IsAbout.bind {p : Program α} {f : α → Program ω} (h : p.IsAbout i heard)
    (hf : ∀ x, (f x).IsAbout i heard) : (p.bind f).IsAbout i heard := by
  induction p with
  | done x => exact hf x
  | act a next ih => exact ⟨h.1, fun x hx => ih x (h.2 x hx)⟩
  | wait w next ih => exact ⟨h.1, fun x hx => ih x (h.2 x hx)⟩

/-- What is left of the program is about the same id. -/
theorem IsAbout.leads {p q : Program ω} {steps : List Step} (h : p.IsAbout i heard)
    (hl : p.Leads steps q) (hs : ∀ e ∈ steps, e.Hears heard) : q.IsAbout i heard := by
  induction hl with
  | refl p => exact h
  | act _ ih =>
    exact ih (h.2 _ (hs _ List.mem_cons_self)) fun e he => hs e (List.mem_cons_of_mem _ he)
  | wait _ ih =>
    exact ih (h.2 _ (hs _ List.mem_cons_self)) fun e he => hs e (List.mem_cons_of_mem _ he)

/-! ### Members -/

section

variable {r : Ref}

theorem isAbout_execute (hr : r.id = i) (command : Command) : (execute r command).IsAbout i heard := by
  unfold execute
  split
  · refine ⟨fun q hq => ?_, fun _ _ => trivial⟩
    rw [List.mem_singleton.1 hq]
    exact hr
  · trivial

theorem isAbout_close (hr : r.id = i) : (close r).IsAbout i heard :=
  ⟨hr, fun _ _ => ⟨hr, fun _ _ => trivial⟩⟩

theorem isAbout_unregisterDead (hr : r.id = i) : (unregisterDead r).IsAbout i heard := by
  refine ⟨hr, fun x _ => ?_⟩
  cases x with
  | true => exact ⟨hr, fun _ _ => trivial⟩
  | false => trivial

theorem isAbout_afterExit (hr : r.id = i) (answer : Except Failure Json) :
    (afterExit r answer).IsAbout i heard := by
  cases answer with
  | ok value => exact (isAbout_close hr).bind fun _ => ⟨hr, fun _ _ => trivial⟩
  | error e =>
    simp only [afterExit]
    split
    · exact (isAbout_unregisterDead hr).bind fun _ => trivial
    · trivial

theorem isAbout_exit (hr : r.id = i) : (exit r).IsAbout i heard :=
  (isAbout_execute hr .exit).bind fun answer =>
    (isAbout_afterExit hr answer).bind fun _ => trivial

theorem isAbout_replaceConnection (hr : r.id = i) (link : Nat) :
    (replaceConnection r link).IsAbout i heard :=
  ⟨hr, fun _ _ => ⟨hr, fun _ _ => trivial⟩⟩

/-! ### Registrations -/

/-- Whoever is displaced had the same id. -/
theorem isAbout_install (kind : WorkerKind) (link : Nat) : (install kind i link).IsAbout i heard := by
  refine ⟨rfl, fun displaced hd => ?_⟩
  cases displaced with
  | none => trivial
  | some r => exact isAbout_close (hd r rfl)

theorem isAbout_reconnect (hr : r.id = i) (kind : WorkerKind) (link : Nat) :
    (reconnect r kind i link).IsAbout i heard := by
  refine (isAbout_replaceConnection hr link).bind fun offered => ?_
  cases offered with
  | handedBack => exact isAbout_install kind link
  | taken | superseded => trivial

theorem isAbout_registerPrimary (link : Nat) : (registerPrimary link).IsAbout primaryId heard := by
  refine ⟨trivial, fun found hf => ?_⟩
  cases found with
  | none => exact isAbout_install .primary link
  | some r => exact isAbout_reconnect (hf r rfl).1 .primary link

theorem isAbout_registerAs (kind : WorkerKind) (link : Nat) :
    (registerAs kind i link).IsAbout i heard := by
  refine ⟨trivial, fun found hf => ?_⟩
  cases found with
  | none => exact isAbout_install kind link
  | some r =>
    change Program.IsAbout i heard (if _ then _ else _)
    split
    · exact isAbout_reconnect (hf r rfl).1 kind link
    · exact isAbout_install kind link

/-- A fresh connection is registered under the id that it says it has, or dropped. -/
theorem isAbout_registerSecondary (link : Nat)
    (hheard : ∀ o who, heard o → identity? o = some who → who.2 = i) :
    (registerSecondary link).IsAbout i heard := by
  rw [registerSecondary, bind_def]
  refine ⟨trivial, fun (o : Outcome) (ho : heard o) => ?_⟩
  change IsAbout i heard ((done o : Program Outcome).bind _)
  rw [done_bind]
  rcases hw : whoAnswered o with e | ⟨kind, id⟩
  · exact ⟨trivial, fun _ _ => trivial⟩
  · obtain rfl : id = i := hheard o (kind, id) ho (by simp only [identity?, hw])
    exact isAbout_registerAs kind link

end

/-! ### Look-ups -/

theorem isAbout_primary : Program.primary.IsAbout i heard :=
  ⟨trivial, fun found _ => by cases found <;> trivial⟩

theorem isAbout_secondary (kind : WorkerKind) (id : UInt32) :
    (Program.secondary kind id).IsAbout i heard := by
  refine ⟨trivial, fun found _ => ?_⟩
  cases found with
  | none => trivial
  | some r =>
    change Program.IsAbout i heard (if _ then _ else _)
    split <;> trivial

end Program

/-! ### Requests -/

namespace Request

variable {request : Request} {r : Ref} {p : Program Response} {i : UInt32}
  {heard : Outcome → Prop}

/-- Who only sees to the end of a member is about its id. -/
theorem isAbout_of_within {ends : Response → Prop} (hr : r.id = i)
    (h : p.Within (IsClosing r) (IsTurnOn r) ends) : p.IsAbout i heard := by
  induction p with
  | done x => trivial
  | act a next ih =>
    obtain ⟨ha, hn⟩ := h
    refine ⟨?_, fun x _ => ih x (hn x)⟩
    rcases ha with rfl | rfl <;> exact hr
  | wait w next ih =>
    obtain ⟨⟨turn, rfl⟩, hn⟩ := h
    exact ⟨hr, fun x _ => ih x (hn x)⟩

theorem Speaks.isAbout (h : request.Speaks r p)
    (hi : ∀ who, request.addressee? = some who → who.2 = i) : p.IsAbout i heard := by
  cases h with
  | atOnce _ => trivial
  | tells _ _ haddressee h =>
    have hr : r.id = i := hi _ haddressee
    refine ⟨fun q hq => ?_, fun outcomes _ => isAbout_of_within hr (h outcomes)⟩
    rw [List.mem_singleton.1 hq]
    exact hr

/-- A request about a worker is about the id that the path names. -/
theorem Answers.isAbout (h : request.Answers p) (hw : request.IsForWorker)
    (hi : ∀ who, request.addressee? = some who → who.2 = i) : p.IsAbout i heard := by
  cases h with
  | atOnce _ => trivial
  | looksUp hn hs =>
    refine ⟨trivial, fun found hf => ?_⟩
    rcases found with _ | r
    · obtain ⟨x, hx, -⟩ := hn
      rw [hx]
      trivial
    · obtain ⟨hid, hproper⟩ := hf r rfl
      subst hid
      exact (hs r rfl hproper).isAbout hi
  | surveys hno _ _ => exact absurd hw hno

end Request

/-! ## What happens elsewhere -/

namespace Broker

variable {ω : Type} {i : UInt32} {a b b' : Broker ω} {m : Move ω} {c n l : Nat}
  {hand : Nat → Option Nat} {β : Nat → Burden} {heard : Outcome → Prop}

/-- There is a member of this number, and it has another id. -/
def IsElsewhere (i : UInt32) (n : Nat) (b : Broker ω) : Prop :=
  n < b.members.length ∧ (b.member n).id ≠ i

/-- No member with another id has this connection. -/
def IsSpare (i : UInt32) (l : Nat) (b : Broker ω) : Prop :=
  ∀ n ch, b.IsElsewhere i n → (b.member n).channel = some ch → ch.link ≠ l

/-- At other ids all is the same. -/
structure Apart (i : UInt32) (b a : Broker ω) : Prop where
  length : b.members.length ≤ a.members.length
  entry : ∀ j, j ≠ i → Table.find? j a.registry = Table.find? j b.registry
  member : ∀ n, b.IsElsewhere i n → a.member n = b.member n
  link : ∀ n ch, b.IsElsewhere i n → (b.member n).channel = some ch →
    a.link ch.link = b.link ch.link

theorem not_isElsewhere_of_genuine {r : Ref} (h : b.standing.Genuine r) (hr : r.id = i) :
    ¬b.IsElsewhere i r.number := by
  obtain ⟨-, -, hid⟩ := h
  rw [member_standing] at hid
  exact fun he => he.2 (hid.trans hr)

/-- Nobody else has the connection of a member. -/
theorem isSpare_of_channel {ch : Channel} (hh : b.standing.Held β) (hn : ¬b.IsElsewhere i n)
    (hch : (b.member n).channel = some ch) : b.IsSpare i ch.link := by
  intro k ch' hk hch' he
  rw [← channel_standing] at hch hch'
  obtain rfl := hh.member k n ch' ch hch' hch he
  exact hn hk

/-- Nobody has a connection that a call has in hand. -/
theorem Handed.isSpare (hh : b.Handed hand) (hl : hand c = some l) (i : UInt32) :
    b.IsSpare i l := by
  rintro n ch - hch rfl
  rw [← channel_standing] at hch
  exact hh.held.apart n ch c hch (by rw [Burden.link?_ofHand, hl])

namespace Apart

theorem refl (i : UInt32) (b : Broker ω) : b.Apart i b :=
  ⟨Nat.le_refl _, fun _ _ => rfl, fun _ _ => rfl, fun _ _ _ _ => rfl⟩

/-- Who is elsewhere stays there. -/
theorem isElsewhere (h : b.Apart i a) (hn : b.IsElsewhere i n) : a.IsElsewhere i n :=
  ⟨Nat.lt_of_lt_of_le hn.1 h.length, by rw [h.member n hn]; exact hn.2⟩

theorem trans (h : b.Apart i a) (h' : a.Apart i b') : b.Apart i b' where
  length := Nat.le_trans h.length h'.length
  entry j hj := (h'.entry j hj).trans (h.entry j hj)
  member n hn := (h'.member n (h.isElsewhere hn)).trans (h.member n hn)
  link n ch hn hch := by
    have hch' : (a.member n).channel = some ch := by rw [h.member n hn, hch]
    exact (h'.link n ch (h.isElsewhere hn) hch').trans (h.link n ch hn hch)

/-! ### Operations -/

theorem congr (h : b.Apart i a) (hm : b'.members = a.members) (hl : b'.links = a.links)
    (hr : b'.registry = a.registry) : b.Apart i b' where
  length := by
    rw [hm]
    exact h.length
  entry j hj := by
    rw [hr]
    exact h.entry j hj
  member n hn := by
    rw [Broker.member, hm]
    exact h.member n hn
  link n ch hn hch := by
    rw [Broker.link, hl]
    exact h.link n ch hn hch

theorem setPhase (h : b.Apart i a) (c : Nat) (p : Phase ω) : b.Apart i (a.setPhase c p) :=
  h.congr rfl rfl rfl

theorem setLeg (h : b.Apart i a) (t : Ticket) (state : LegState) :
    b.Apart i (a.setLeg t state) := by
  unfold Broker.setLeg
  split
  · exact h.setPhase _ _
  · exact h

theorem changeMember (h : b.Apart i a) (hn : ¬b.IsElsewhere i n) (f : Member → Member) :
    b.Apart i (a.changeMember n f) where
  length := by
    rw [Broker.changeMember, List.length_modify]
    exact h.length
  entry := h.entry
  member k hk := by
    have hkn : k ≠ n := by
      rintro rfl
      exact hn hk
    rw [member_changeMember, if_neg fun e => hkn e.1]
    exact h.member k hk
  link := h.link

theorem changeLink (h : b.Apart i a) (hl : b.IsSpare i l) (f : Link → Link) :
    b.Apart i (a.changeLink l f) where
  length := h.length
  entry := h.entry
  member := h.member
  link n ch hn hch := by
    rw [link_changeLink, if_neg fun e => hl n ch hn hch e.1]
    exact h.link n ch hn hch

theorem disconnect (h : b.Apart i a) (hh : b.standing.Held β) (hn : ¬b.IsElsewhere i n)
    (hch : (a.member n).channel = (b.member n).channel) : b.Apart i (a.disconnect n) := by
  unfold Broker.disconnect
  split
  · exact h
  · rename_i ch hsome
    exact (h.changeLink (isSpare_of_channel hh hn (hch.symm.trans hsome)) _).changeMember hn _

theorem queueLegs {commands : List (Ref × Command)} (h : b.Apart i a)
    (hc : ∀ q ∈ commands, ¬b.IsElsewhere i q.1.number) (c k : Nat) :
    b.Apart i (a.queueLegs c k commands) := by
  induction commands generalizing a k with
  | nil => exact h
  | cons q commands ih =>
    have hq := hc q List.mem_cons_self
    exact ih (h.changeMember hq _) (fun q hq => hc q (List.mem_cons_of_mem _ hq)) (k + 1)

theorem conclude (h : b.Apart i a) (hn : ¬b.IsElsewhere i n) (t : Ticket) (o : Outcome) :
    b.Apart i (a.conclude n t o) :=
  (h.changeMember hn _).setLeg t _

theorem settle (h : b.Apart i a) (hh : b.standing.Held β) (hn : ¬b.IsElsewhere i n)
    (hch : (a.member n).channel = (b.member n).channel) (t : Ticket) (o : Outcome) :
    b.Apart i (a.settle n t o) := by
  cases o with
  | ok raw => exact h.conclude hn t _
  | error s => exact (h.disconnect hh hn hch).conclude hn t _

end Apart

/-! ### Moves -/

/-- An act about an id is done at that id. -/
theorem apart_act {x : Act} (hx : x.IsAbout i) (hl : ∀ l ∈ x.link?, b.IsSpare i l)
    (hr : ∀ r ∈ x.member?, b.standing.Genuine r) : b.Apart i (b.act x).2 := by
  have hput : ∀ (r : Ref) members, (∀ k, b.IsElsewhere i k →
      (⟨b.timeout, b.clock, Table.put i r b.registry, members, b.links, b.calls, b.held⟩ :
        Broker ω).member k = b.member k) → b.members.length ≤ members.length →
      b.Apart i { b with registry := Table.put i r b.registry, members } := by
    intro r members hm hlength
    refine ⟨hlength, fun j hj => ?_, hm, fun _ _ _ _ => rfl⟩
    rw [Table.find?_put, if_neg hj]
  have hremove : b.Apart i { b with registry := Table.remove i b.registry } := by
    refine ⟨Nat.le_refl _, fun j hj => ?_, fun _ _ => rfl, fun _ _ _ _ => rfl⟩
    rw [Table.find?_remove, if_neg hj]
  cases x with
  | find id | roster => exact .refl i b
  | enrol kind id link =>
    obtain rfl : id = i := hx
    refine hput _ (b.members ++ [.fresh kind id link]) (fun k hk => ?_) (by simp)
    rw [member, List.getElem?_append_left hk.1]
    rfl
  | reinstate r =>
    obtain rfl : r.id = i := hx
    exact hput r b.members (fun _ _ => rfl) (Nat.le_refl _)
  | strike r =>
    obtain rfl : r.id = i := hx
    simp only [act]
    split
    · exact hremove
    · exact .refl _ b
  | dismiss kind id =>
    obtain rfl : id = i := hx
    simp only [act]
    split
    · split
      · exact hremove
      · exact .refl _ b
    · exact .refl _ b
  | advance r =>
    exact (Apart.refl i b).changeMember (not_isElsewhere_of_genuine (hr r rfl) hx) _
  | discard l => exact (Apart.refl i b).changeLink (hl l rfl) _

/-- So is a turn on a member of the id. -/
theorem apart_take (hh : b.standing.Held β) (hn : ¬b.IsElsewhere i n) (turn : Turn)
    (hl : ∀ l ∈ turn.link?, b.IsSpare i l) : b.Apart i (b.take n turn).2 := by
  have hcut : b.Apart i (b.disconnect n) := (Apart.refl i b).disconnect hh hn rfl
  cases turn with
  | offer g l =>
    simp only [take]
    split
    · exact .refl i b
    · split
      · exact (Apart.refl i b).changeLink (hl l rfl) _
      · exact hcut.changeMember hn _
  | shut => exact hcut.changeMember hn _
  | retire =>
    simp only [take]
    split
    · exact .refl i b
    · exact (Apart.refl i b).changeMember hn _
  | look => exact .refl i b

/-- What a member of the id is told, nobody else hears. -/
theorem apart_beginExchange (hh : b.standing.Held β) (hn : ¬b.IsElsewhere i n) (t : Ticket)
    (command : Command) : b.Apart i (b.beginExchange n t command) := by
  simp only [beginExchange]
  split
  · exact (Apart.refl i b).conclude hn t _
  · rename_i ch hch
    split
    · exact (Apart.refl i b).conclude hn t _
    · split
      · exact ((Apart.refl i b).changeLink (isSpare_of_channel hh hn hch) _).setLeg t _
      · exact (Apart.refl i b).settle hh hn rfl t _

/-- The member whose turn it is for a call that is about an id has that id. -/
theorem not_isElsewhere_of_wait {w : Wait} {next : w.Answer → Program ω} {p : Phase ω} {r : Ref}
    (hb : b.Steady) (hp : b.phase? c = some p) (hleft : p.left? = some (.wait w next))
    (hw : w.IsAbout i) (hr : r ∈ w.members) : ¬b.IsElsewhere i r.number := by
  refine not_isElsewhere_of_genuine (hb.genuine_of_wait hp hleft r hr) ?_
  cases w with
  | enter r' turn =>
    rw [List.mem_singleton.1 hr]
    exact hw
  | converse commands =>
    obtain ⟨q, hq, rfl⟩ := List.mem_map.1 hr
    exact hw q hq
  | greet l => cases hr

/-- Whoever a call that is about an id waits for has that id. -/
theorem not_isElsewhere_of_waitsAt {p : Phase ω} {k : Nat} (hb : b.Steady)
    (hp : b.phase? c = some p) (hq : ∀ q, b.left? c = some q → q.IsAbout i heard)
    (hw : p.WaitsAt n k) : ¬b.IsElsewhere i n := by
  cases p with
  | entering r turn next =>
    obtain ⟨rfl, -⟩ := hw
    exact not_isElsewhere_of_wait hb hp rfl (hq _ (left?_of_phase hp)).1 (List.mem_singleton_self r)
  | conversing legs next =>
    obtain ⟨leg, hl, rfl, -⟩ := hw
    refine not_isElsewhere_of_wait hb hp rfl (hq _ (left?_of_phase hp)).1 ?_
    rw [Wait.members, List.map_map]
    exact List.mem_map.2 ⟨leg, List.mem_of_getElem? hl, rfl⟩
  | _ => exact hw.elim

/-- So has whoever turns to it. -/
theorem not_isElsewhere_of_front {t : Ticket} {rest : List Ticket} {p : Phase ω} (hb : b.Steady)
    (hn : (b.member n).queue = t :: rest) (hp : b.phase? t.call = some p)
    (hq : ∀ q, b.left? t.call = some q → q.IsAbout i heard) : ¬b.IsElsewhere i n :=
  not_isElsewhere_of_waitsAt hb hp hq (hb.order.waitsAt hn hp)

/-- A call that is about an id makes the next step of its program at that id. -/
theorem apart_run {p : Program ω} (hb : b.Steady) (hh : b.Handed hand)
    (hp : b.phase? c = some (.running p)) (hq : p.IsAbout i heard) :
    b.Apart i (b.stepProgram c p) := by
  have hspare : ∀ l, hand c = some l → b.IsSpare i l := fun l hl => hh.isSpare hl i
  have hholds := hh.holds c p (left?_of_phase hp)
  cases p with
  | done x => exact (Apart.refl i b).setPhase c _
  | act x next =>
    obtain ⟨refs, hreg, hgenuine⟩ := hb.of_phase hp rfl
    have h := apart_act hq.1 (fun l hl => hspare l (hholds.1 l hl))
      fun r hr => hgenuine r (hreg.2.1 r hr)
    exact Apart.setPhase (a := (b.act x).2.meet c _) (h.congr rfl rfl rfl) c _
  | wait w next =>
    have helsewhere : ∀ r ∈ w.members, ¬b.IsElsewhere i r.number := fun r hr =>
      not_isElsewhere_of_wait hb hp rfl hq.1 hr
    cases w with
    | enter r turn =>
      exact ((Apart.refl i b).changeMember (helsewhere r (List.mem_singleton_self r)) _).setPhase c _
    | converse commands =>
      refine Apart.setPhase (Apart.queueLegs (.refl i b) (fun q hq => ?_) c 0) c _
      exact helsewhere q.1 (List.mem_map_of_mem hq)
    | greet l =>
      simp only [stepProgram, beginWait]
      split
      · exact ((Apart.refl i b).changeLink (hspare l (hholds.1 l rfl)) _).setPhase c _
      · exact (Apart.refl i b).setPhase c _

/-- A command that talks is for a member of the id that its call is about, on the connection of that
member. -/
theorem talks_of_isAbout {t : Ticket} {d : Nat} (hb : b.Steady) (hh : b.standing.Held β)
    (ht : b.talking? t = some (n, l, d))
    (hq : ∀ q, b.left? t.call = some q → q.IsAbout i heard) :
    ¬b.IsElsewhere i n ∧ b.IsSpare i l := by
  obtain ⟨legs, next, leg, hp, hl, hnumber, hs⟩ := leg_of_talking? ht
  have hn : ¬b.IsElsewhere i n :=
    not_isElsewhere_of_waitsAt hb hp hq ⟨leg, hl, hnumber, by rw [Leg.outcome?, hs]⟩
  obtain ⟨g, hch⟩ := hb.order.channel _ _ _ _ ht
  exact ⟨hn, isSpare_of_channel hh hn hch⟩

/-- A call that is about an id has a place in no other queue. -/
theorem apart_withdraw (hb : b.Steady)
    (hq : ∀ q, b.left? c = some q → q.IsAbout i heard) : b.Apart i (b.withdraw c) where
  length := by
    rw [withdraw, List.length_map]
  entry _ _ := rfl
  member n hn := by
    have hqueue : ∀ t ∈ (b.member n).queue, t.call ≠ c := by
      rintro t ht rfl
      obtain ⟨p, hp, hw⟩ := (hb.order.mem_iff n t).1 ht
      exact not_isElsewhere_of_waitsAt hb hp hq hw hn
    rw [withdraw, member, List.getElem?_map]
    rw [member] at hqueue
    rcases hm : b.members[n]? with _ | x
    · rw [member, hm]
      rfl
    · rw [member, hm]
      rw [hm] at hqueue
      simp only [Option.map_some, Option.getD_some] at hqueue ⊢
      rw [List.filter_eq_self.2 fun t ht => by simpa using hqueue t ht]
  link _ _ _ _ := rfl

/-- Whatever a call that is about an id does, is done at that id. -/
theorem apart_of_mover (hb : b.Steady) (hh : b.Handed hand) (hm : b.step m = some b')
    (hc : b.mover? m = some c) (hq : ∀ q, b.left? c = some q → q.IsAbout i heard) : b.Apart i b' := by
  cases makes_of_step hm with
  | starts program refs brings => exact (Apart.refl i b).congr rfl rfl rfl
  | runs hp =>
    cases hc
    exact apart_run hb hh hp (hq _ (left?_of_phase hp))
  | @turns n t rest r turn next hn hp =>
    cases hc.symm.trans (mover?_serve hn)
    have helsewhere := not_isElsewhere_of_front hb hn hp hq
    have hholds := (hh.holds _ _ (left?_of_phase hp)).1
    refine Apart.setPhase ?_ _ _
    exact (apart_take hh.held helsewhere turn fun l hl => hh.isSpare (hholds l hl) i).changeMember
      helsewhere _
  | begins hn hp hl =>
    cases hc.symm.trans (mover?_serve hn)
    exact apart_beginExchange hh.held (not_isElsewhere_of_front hb hn hp hq) _ _
  | receives ht _ =>
    cases hc
    obtain ⟨hn, hl⟩ := talks_of_isAbout hb hh.held ht hq
    exact ((Apart.refl i b).changeLink hl _).settle hh.held hn rfl _ _
  | supersedes ht _ _ =>
    cases hc
    obtain ⟨hn, -⟩ := talks_of_isAbout hb hh.held ht hq
    exact (Apart.refl i b).conclude hn _ _
  | expires ht _ =>
    cases hc
    obtain ⟨hn, -⟩ := talks_of_isAbout hb hh.held ht hq
    exact (Apart.refl i b).settle hh.held hn rfl _ _
  | @hears _ l _ next o rest hp _ =>
    cases hc
    have hl := (hh.holds _ _ (left?_of_phase hp)).1 l rfl
    exact ((Apart.refl i b).changeLink (hh.isSpare hl i) _).setPhase _ _
  | givesUp _ _ => exact (Apart.refl i b).setPhase _ _
  | abandons _ _ _ =>
    cases hc
    exact (apart_withdraw hb hq).setPhase _ _
  | accepts | signals _ _ | releases _ _ | passes _ => cases hc

end Broker

/-! ## Services at one id -/

namespace Service

open Broker

variable {asked : Nat → Service} {timeout c : Nat} {past : List (Deed Upshot)}
  {b : Broker Upshot} {i : UInt32}

/-- A service is about one id: a registration is about the id that the fresh connection is heard to
have, if any, and a request about a worker is about the id that its path names. -/
def IsAimedAt (i : UInt32) (past : List (Deed Upshot)) (c : Nat) : Service → Prop
  | .operation (.registerPrimary _) | .primary => primaryId = i
  | .operation (.registerSecondary _) => ∀ d ∈ past, ∀ l o who,
      d.event? = some (.ended ⟨c, 0⟩ l o) → identity? o = some who → who.2 = i
  | .operation (.execute r _) | .operation (.exit r) | .operation (.replaceConnection r _)
  | .operation (.close r) | .operation (.retire r) => r.id = i
  | .operation (.terminate _ id) | .secondary _ id => id = i
  | .operation .listing | .operation .cpuUsage | .operation (.cpuUnused _ _) => False
  | .request _ x => x.IsForWorker ∧ ∀ who, x.addressee? = some who → who.2 = i

/-- What has been heard on the connections that a call has asked who they are. -/
def Heard (past : List (Deed Upshot)) (c : Nat) (s : Service) (o : Outcome) : Prop :=
  (∃ l, s = .operation (.registerSecondary l)) → ∃ d ∈ past, ∃ l, d.event? = some (.ended ⟨c, 0⟩ l o)

/-- What is done for a service is about the id that the service is about. -/
theorem isAbout_program {s : Service} (h : s.IsAimedAt i past c) :
    s.program.IsAbout i (Heard past c s) := by
  cases s with
  | operation op =>
    refine Program.IsAbout.bind ?_ fun _ => trivial
    cases op with
    | registerPrimary link =>
      obtain rfl : primaryId = i := h
      exact (Program.isAbout_registerPrimary link).bind fun _ => trivial
    | registerSecondary link =>
      refine (Program.isAbout_registerSecondary link fun o who ho hi => ?_).bind fun _ => trivial
      obtain ⟨d, hd, l, he⟩ := ho ⟨link, rfl⟩
      exact h d hd l o who he hi
    | execute r command => exact (Program.isAbout_execute h command).bind fun _ => trivial
    | exit r => exact (Program.isAbout_exit h).bind fun _ => trivial
    | terminate kind id => exact ⟨h, fun _ _ => trivial⟩
    | replaceConnection r link =>
      exact (Program.isAbout_replaceConnection h link).bind fun _ => trivial
    | close r => exact (Program.isAbout_close h).bind fun _ => trivial
    | retire r => exact ⟨h, fun _ _ => trivial⟩
    | listing | cpuUsage | cpuUnused _ _ => exact h.elim
  | primary => exact Program.isAbout_primary.bind fun _ => trivial
  | secondary kind id => exact (Program.isAbout_secondary kind id).bind fun _ => trivial
  | request layout request =>
    exact ((Gateway.answers_handle layout request).isAbout h.1 h.2).bind fun _ => trivial

/-- What is left of a call is about the id that the call is about. -/
theorem isAbout_left {all : List (Deed Upshot)}
    (hr : Run (fun _ => Starts asked) (fresh timeout) past b) (hall : past ⊆ all)
    (h : (asked c).IsAimedAt i all c) {q : Program Upshot} (hq : b.left? c = some q) :
    q.IsAbout i (Heard all c (asked c)) := by
  obtain ⟨steps, q', hq', hpath, hmade⟩ := path hr hq
  obtain rfl := Option.some.inj (hq.symm.trans hq')
  refine (isAbout_program h).leads hpath fun e he => ?_
  cases e with
  | act a x => exact isPlausible_of_made (steady hr).2 (hmade _ he)
  | wait w x =>
    cases w with
    | greet l =>
      intro _
      obtain ⟨d, hd, hevent⟩ := hmade _ he
      exact ⟨d, hall hd, l, hevent⟩
    | enter r turn | converse commands => trivial

end Service

/-- This happens at one id: a call that is about the id does something, or a worker does something
with a connection that is not that of a member with another id, or a member with the id loses its
connection since nobody refers to it. -/
def Deed.IsAt (asked : Nat → Service) (past : List (Deed Upshot)) (i : UInt32) (d : Deed Upshot) :
    Prop :=
  match d.move with
  | .signal l _ => d.before.IsSpare i l
  | .release n => ¬d.before.IsElsewhere i n
  | m => ∀ c, d.before.mover? m = some c → (asked c).IsAimedAt i past c

namespace Service

open Broker

variable {asked : Nat → Service} {timeout : Nat} {past past' all : List (Deed Upshot)}
  {a b b' : Broker Upshot} {m : Move Upshot} {i : UInt32}

/-- What happens at an id, happens there only. -/
theorem apart_step (hr : Run (fun _ => Starts asked) (fresh timeout) past b) (hall : past ⊆ all)
    (hm : b.step m = some b') (h : Deed.IsAt asked all i ⟨b, m⟩) : b.Apart i b' := by
  obtain ⟨hand, hh⟩ := handed hr
  rcases hc : b.mover? m with _ | c
  · cases makes_of_step hm with
    | signals l s => exact (Apart.refl i b).changeLink h _
    | releases _ _ => exact (Apart.refl i b).disconnect hh.held h rfl
    | accepts =>
      refine ⟨Nat.le_refl _, fun _ _ => rfl, fun _ _ => rfl, fun n ch _ hch => ?_⟩
      have hlt : ch.link < b.links.length := by
        have hopen := hh.held.channel n ch (by rw [channel_standing, hch])
        exact lt_of_isOpen hopen
      rw [link, link, List.getElem?_append_left hlt]
    | passes time => exact (Apart.refl i b).congr rfl rfl rfl
    | turns hn _ | begins hn _ _ => cases hc.symm.trans (mover?_serve hn)
    | _ => cases hc
  · have haimed : (asked c).IsAimedAt i all c := by
      cases m with
      | signal _ _ | release _ => cases hc
      | _ => exact h c hc
    exact apart_of_mover (steady hr).1 hh hm hc fun q hq => isAbout_left hr hall haimed hq

/-- As long as all that happens happens at one id, all is the same at the others. -/
theorem apart (ha : Run (fun _ => Starts asked) (fresh timeout) past a)
    (hr : Run (fun _ => Starts asked) a past' b)
    (h : ∀ d ∈ past', d.IsAt asked (past ++ past') i) : a.Apart i b := by
  have hall : ∀ {q : List (Deed Upshot)} {b : Broker Upshot},
      Run (fun _ => Starts asked) a q b → q ⊆ past' → a.Apart i b := by
    intro q b hq hsub
    induction hq with
    | nil => exact .refl i a
    | @snoc q b b' m hq _ hm ih =>
      have hsub' : q ⊆ past' := fun d hd => hsub (List.mem_append_left _ hd)
      have hlast : (⟨b, m⟩ : Deed Upshot) ∈ past' :=
        hsub (List.mem_append_right _ (List.mem_singleton_self _))
      refine (ih hsub').trans (apart_step (ha.append hq) ?_ hm (h _ hlast))
      exact List.append_subset.2 ⟨List.subset_append_left .., fun d hd =>
        List.mem_append_right _ (hsub' hd)⟩
  exact hall hr (List.Subset.refl _)

end Service

end WorkerBroker
