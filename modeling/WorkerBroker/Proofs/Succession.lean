import WorkerBroker.Proofs.Engagement
import WorkerBroker.Proofs.Replacement
/-!
# Registrations one after the other

When registrations do not overlap, the registry is a book in which the last entry for an id counts.
`Book.register` says what one registration does to the book: a worker of the kind that is registered
under its id takes over the member, and one of another kind gets a new member in the place of the
old one.

A registration goes through several stages until the registry shows it (`Stage`), since a member may
have to be replaced, or shut, in a turn of its own. `Stage.step` is the induction on moves. Once no
registration is under way, the registry and the members are what the book says (`Reflects`), and
`Broker.last_registration_wins` reads off what that means for each id.
-/

namespace WorkerBroker

open Broker

/-! ## The book -/

/-- A worker says who it is, or is the primary, and brings its connection. -/
structure Registration where
  kind : WorkerKind
  id : UInt32
  link : Nat
  deriving DecidableEq, Repr

/-- Who is registered under each id, and with what connection. -/
structure Book where
  entries : Table UInt32 (Ref × Nat)
  /-- how many members were made -/
  made : Nat
  /-- the connections whose place was taken -/
  dropped : List Nat

namespace Book

variable {book : Book} {x y : Registration} {id : UInt32} {r : Ref} {l : Nat}
  {history later : List Registration}

/-- The next registration. -/
def register (book : Book) (x : Registration) : Book :=
  match Table.find? x.id book.entries with
  | none => ⟨Table.put x.id (⟨book.made, x.kind, x.id⟩, x.link) book.entries, book.made + 1,
      book.dropped⟩
  | some (r, old) =>
    if r.kind = x.kind then
      ⟨Table.put x.id (r, x.link) book.entries, book.made, old :: book.dropped⟩
    else
      ⟨Table.put x.id (⟨book.made, x.kind, x.id⟩, x.link) book.entries, book.made + 1,
        old :: book.dropped⟩

/-- The book after further registrations, the first one first. -/
def after (book : Book) (later : List Registration) : Book :=
  later.foldl register book

/-- The book of a history. -/
def of (history : List Registration) : Book :=
  after ⟨[], 0, []⟩ history

theorem of_append (history later : List Registration) :
    of (history ++ later) = (of history).after later :=
  List.foldl_append

theorem of_snoc (history : List Registration) (x : Registration) :
    of (history ++ [x]) = (of history).register x :=
  of_append history [x]

/-! ### One registration -/

theorem register_of_none (h : Table.find? x.id book.entries = none) :
    book.register x =
      ⟨Table.put x.id (⟨book.made, x.kind, x.id⟩, x.link) book.entries, book.made + 1,
        book.dropped⟩ := by
  simp only [register, h]

theorem register_of_same (h : Table.find? x.id book.entries = some (r, l))
    (hk : r.kind = x.kind) :
    book.register x =
      ⟨Table.put x.id (r, x.link) book.entries, book.made, l :: book.dropped⟩ := by
  simp only [register, h, hk, if_true]

theorem register_of_other (h : Table.find? x.id book.entries = some (r, l))
    (hk : r.kind ≠ x.kind) :
    book.register x =
      ⟨Table.put x.id (⟨book.made, x.kind, x.id⟩, x.link) book.entries, book.made + 1,
        l :: book.dropped⟩ := by
  simp only [register, h, hk, if_false]

/-- Other ids are left alone. -/
theorem find?_register_ne (book : Book) (h : id ≠ x.id) :
    Table.find? id (book.register x).entries = Table.find? id book.entries := by
  have hput : ∀ e, Table.find? id (Table.put x.id e book.entries) =
      Table.find? id book.entries := fun e => by rw [Table.find?_put, if_neg h]
  rcases hf : Table.find? x.id book.entries with _ | ⟨r, l⟩
  · rw [register_of_none hf, hput]
  · by_cases hk : r.kind = x.kind
    · rw [register_of_same hf hk, hput]
    · rw [register_of_other hf hk, hput]

/-- Whoever has just been registered is there with its kind and its connection. -/
theorem find?_register_self (book : Book) (x : Registration) :
    ∃ r, Table.find? x.id (book.register x).entries = some (r, x.link) ∧ r.kind = x.kind := by
  rcases hf : Table.find? x.id book.entries with _ | ⟨r, l⟩
  · exact ⟨_, by rw [register_of_none hf, Table.find?_put, if_pos rfl], rfl⟩
  · by_cases hk : r.kind = x.kind
    · exact ⟨r, by rw [register_of_same hf hk, Table.find?_put, if_pos rfl], hk⟩
    · exact ⟨_, by rw [register_of_other hf hk, Table.find?_put, if_pos rfl], rfl⟩

/-- A member stays in the book if its id is not registered with another kind. -/
theorem find?_register_same (h : Table.find? id book.entries = some (r, l))
    (hk : x.id = id → x.kind = r.kind) :
    ∃ l', Table.find? id (book.register x).entries = some (r, l') := by
  by_cases hid : x.id = id
  · subst hid
    exact ⟨x.link, by rw [register_of_same h (hk rfl).symm, Table.find?_put, if_pos rfl]⟩
  · exact ⟨l, by rwa [find?_register_ne _ (Ne.symm hid)]⟩

/-- A connection whose place was taken stays dropped. -/
theorem dropped_register (h : l ∈ book.dropped) (x : Registration) :
    l ∈ (book.register x).dropped := by
  unfold register
  split
  · exact h
  · split <;> exact List.mem_cons_of_mem _ h

/-- The connection that was there is dropped. -/
theorem dropped_of_find? (h : Table.find? x.id book.entries = some (r, l)) :
    l ∈ (book.register x).dropped := by
  by_cases hk : r.kind = x.kind
  · rw [register_of_same h hk]
    exact List.mem_cons_self
  · rw [register_of_other h hk]
    exact List.mem_cons_self

/-! ### Histories -/

/-- The ids in the book are those that were registered. -/
theorem isSome_find?_of (history : List Registration) (id : UInt32) :
    (Table.find? id (of history).entries).isSome ↔ ∃ x ∈ history, x.id = id := by
  induction history using List.reverseRecOn with
  | nil => simp [of, after]
  | append_singleton history x ih =>
    rw [of_snoc]
    by_cases hid : id = x.id
    · subst hid
      obtain ⟨r, hr, -⟩ := (of history).find?_register_self x
      simp [hr]
    · rw [find?_register_ne _ hid, ih]
      simp [Ne.symm hid]

/-- The last registration of an id is the one that is in the book. -/
theorem find?_of_last
    (h : (history.filter fun y => y.id = id).getLast? = some x) :
    ∃ r, Table.find? id (of history).entries = some (r, x.link) ∧ r.kind = x.kind := by
  induction history using List.reverseRecOn with
  | nil => simp at h
  | append_singleton history y ih =>
    rw [of_snoc]
    by_cases hid : y.id = id
    · subst hid
      rw [List.filter_append, List.filter_singleton, decide_eq_true rfl, cond_true,
        List.getLast?_concat, Option.some.injEq] at h
      subst h
      exact (of history).find?_register_self y
    · rw [find?_register_ne _ (Ne.symm hid)]
      refine ih ?_
      rwa [List.filter_append, List.filter_singleton, decide_eq_false hid, cond_false,
        List.append_nil] at h

theorem dropped_after (h : l ∈ book.dropped) (later : List Registration) :
    l ∈ (book.after later).dropped := by
  induction later generalizing book with
  | nil => exact h
  | cons y later ih => exact ih (dropped_register h y)

/-- A connection is dropped when its id is registered again. -/
theorem dropped_of_again (h : Table.find? id book.entries = some (r, l))
    (hy : ∃ y ∈ later, y.id = id) : l ∈ (book.after later).dropped := by
  induction later generalizing book with
  | nil => simp at hy
  | cons y later ih =>
    by_cases hid : y.id = id
    · subst hid
      exact dropped_after (dropped_of_find? h) later
    · refine ih (by rwa [find?_register_ne _ (Ne.symm hid)]) ?_
      simpa [hid] using hy

/-- A member stays registered as long as its id is registered with its kind. -/
theorem find?_after_of_same (h : Table.find? id book.entries = some (r, l))
    (hk : ∀ y ∈ later, y.id = id → y.kind = r.kind) :
    ∃ l', Table.find? id (book.after later).entries = some (r, l') := by
  induction later generalizing book l with
  | nil => exact ⟨l, h⟩
  | cons y later ih =>
    obtain ⟨l', h'⟩ := find?_register_same h (hk y List.mem_cons_self)
    exact ih h' fun z hz => hk z (List.mem_cons_of_mem _ hz)

/-! ### Members that are made, and members that go -/

/-- Every member in the book was made, and is there under its own id. -/
def Proper (book : Book) : Prop :=
  ∀ id r l, Table.find? id book.entries = some (r, l) → r.id = id ∧ r.number < book.made

/-- No two members in the book have the same number. -/
def Apart (book : Book) : Prop :=
  ∀ id id' r r' l l', Table.find? id book.entries = some (r, l) →
    Table.find? id' book.entries = some (r', l') → r.number = r'.number → id = id'

/-- The member of that number was made, and is not in the book any more. -/
def Lacks (book : Book) (n : Nat) : Prop :=
  n < book.made ∧ ∀ id r l, Table.find? id book.entries = some (r, l) → r.number ≠ n

/-- What is in the book after a registration was there before, under the same id, or it has just
been made. -/
theorem find?_register (h : Table.find? id (book.register x).entries = some (r, l)) :
    (∃ l', Table.find? id book.entries = some (r, l')) ∨
      id = x.id ∧ r = ⟨book.made, x.kind, x.id⟩ ∧ (book.register x).made = book.made + 1 := by
  by_cases hid : id = x.id
  · subst hid
    rcases hf : Table.find? x.id book.entries with _ | ⟨r', l'⟩
    · rw [register_of_none hf, Table.find?_put, if_pos rfl] at h
      cases h
      exact .inr ⟨rfl, rfl, by rw [register_of_none hf]⟩
    · by_cases hk : r'.kind = x.kind
      · rw [register_of_same hf hk, Table.find?_put, if_pos rfl] at h
        cases h
        exact .inl ⟨l', rfl⟩
      · rw [register_of_other hf hk, Table.find?_put, if_pos rfl] at h
        cases h
        exact .inr ⟨rfl, rfl, by rw [register_of_other hf hk]⟩
  · rw [find?_register_ne _ hid] at h
    exact .inl ⟨l, h⟩

theorem made_le_register (book : Book) (x : Registration) :
    book.made ≤ (book.register x).made := by
  unfold register
  split
  · exact Nat.le_succ _
  · split
    · exact Nat.le_refl _
    · exact Nat.le_succ _

theorem Proper.register (h : book.Proper) (x : Registration) : (book.register x).Proper := by
  intro id r l hr
  rcases find?_register hr with ⟨l', hr⟩ | ⟨rfl, rfl, hm⟩
  · obtain ⟨hid, hlt⟩ := h id r l' hr
    exact ⟨hid, Nat.lt_of_lt_of_le hlt (made_le_register ..)⟩
  · exact ⟨rfl, by rw [hm]; exact Nat.lt_succ_self _⟩

theorem Apart.register (h : book.Apart) (hp : book.Proper) (x : Registration) :
    (book.register x).Apart := by
  intro id id' r r' l l' hr hr' hn
  rcases find?_register hr with ⟨k, hr⟩ | ⟨rfl, rfl, -⟩ <;>
    rcases find?_register hr' with ⟨k', hr'⟩ | ⟨rfl, rfl, -⟩
  · exact h id id' r r' k k' hr hr' hn
  · have := (hp id r k hr).2
    dsimp only at hn
    omega
  · have := (hp id' r' k' hr').2
    dsimp only at hn
    omega
  · rfl

theorem proper_of (history : List Registration) : (of history).Proper ∧ (of history).Apart := by
  induction history using List.reverseRecOn with
  | nil => exact ⟨nofun, nofun⟩
  | append_singleton history x ih =>
    rw [of_snoc]
    exact ⟨ih.1.register x, ih.2.register ih.1 x⟩

theorem Lacks.register {n : Nat} (h : book.Lacks n) (x : Registration) :
    (book.register x).Lacks n := by
  refine ⟨Nat.lt_of_lt_of_le h.1 (made_le_register ..), fun id r l hr => ?_⟩
  rcases find?_register hr with ⟨l', hr⟩ | ⟨-, rfl, -⟩
  · exact h.2 id r l' hr
  · exact (Nat.ne_of_lt h.1).symm

theorem Lacks.after {n : Nat} (h : book.Lacks n) (later : List Registration) :
    (book.after later).Lacks n := by
  induction later generalizing book with
  | nil => exact h
  | cons y later ih => exact ih (h.register y)

/-- A member goes when its id is registered with another kind. -/
theorem lacks_of_other (hp : book.Proper) (ha : book.Apart)
    (h : Table.find? id book.entries = some (r, l))
    (hk : ∃ y ∈ later, y.id = id ∧ y.kind ≠ r.kind) : (book.after later).Lacks r.number := by
  induction later generalizing book l with
  | nil => simp at hk
  | cons y later ih =>
    by_cases hy : y.id = id ∧ y.kind ≠ r.kind
    · obtain ⟨rfl, hkind⟩ := hy
      have hgone : (book.register y).Lacks r.number := by
        refine ⟨Nat.lt_of_lt_of_le (hp _ _ _ h).2 (made_le_register ..),
          fun id' r' l' hr' hn => ?_⟩
        by_cases hid : id' = y.id
        · subst hid
          rw [register_of_other h (Ne.symm hkind), Table.find?_put, if_pos rfl] at hr'
          cases hr'
          exact Nat.ne_of_gt (hp _ _ _ h).2 hn
        · rw [find?_register_ne _ hid] at hr'
          exact hid (ha _ _ _ _ _ _ hr' h hn)
      exact hgone.after later
    · have hlater : ∃ z ∈ later, z.id = id ∧ z.kind ≠ r.kind := by
        obtain ⟨z, hz, hid, hkind⟩ := hk
        rcases List.mem_cons.1 hz with rfl | hz
        · exact absurd ⟨hid, hkind⟩ hy
        · exact ⟨z, hz, hid, hkind⟩
      obtain ⟨l', hr⟩ := find?_register_same h fun hid =>
        Decidable.not_not.1 fun hkind => hy ⟨hid, hkind⟩
      exact ih (hp.register y) (ha.register hp y) hr hlater

end Book

/-! ## Who registers in a run -/

/-- The registration that becomes known in a move: the primary's when it is started, that of a
secondary when the worker has said who it is. -/
def Deed.registration? (asked : Nat → Operation) (d : Deed Result) : Option Registration :=
  match d.move with
  | .start _ _ _ =>
    match asked d.before.calls.length with
    | .registerPrimary link => some ⟨.primary, primaryId, link⟩
    | _ => none
  | _ => d.heard?.map fun h => ⟨h.2.2.1, h.2.2.2, h.2.1⟩

/-- The registrations in a run, the first one first. -/
def registrations (asked : Nat → Operation) (past : List (Deed Result)) : List Registration :=
  past.filterMap (Deed.registration? asked)

section

variable {asked : Nat → Operation} {b : Broker Result} {m : Move Result} {c l : Nat} {o : Outcome}

theorem registrations_snoc (past : List (Deed Result)) (d : Deed Result) :
    registrations asked (past ++ [d]) =
      registrations asked past ++ (d.registration? asked).toList :=
  filterMap_snoc _ past d

/-- Whoever has said who it is, is registered. -/
theorem registration?_of_hears (h : b.Hears c l o m) :
    Deed.registration? asked ⟨b, m⟩ =
      (identity? o).map fun who => ⟨who.1, who.2, l⟩ := by
  have hheard : Deed.registration? asked ⟨b, m⟩ =
      (Deed.heard? ⟨b, m⟩).map fun h => ⟨h.2.2.1, h.2.2.2, h.2.1⟩ := by
    cases m with
    | start _ _ _ => exact h.elim
    | _ => rfl
  rw [hheard]
  rcases hwho : identity? o with _ | who
  · rcases hd : Deed.heard? ⟨b, m⟩ with _ | ⟨c', l', who⟩
    · rfl
    · obtain ⟨raw, hraw, hid⟩ := Deed.heard?_eq_some.1 hd
      obtain ⟨-, -, rfl⟩ := h.ext hraw
      cases hwho.symm.trans hid
  · cases o with
    | error s => cases hwho
    | ok raw =>
      rw [Deed.heard?_eq_some.2 ⟨raw, h, hwho⟩]
      rfl

/-- Nobody is registered in a move in which nobody says who it is, unless it starts a call. -/
theorem registration?_of_not_hears (hm : ∀ program refs brings, m ≠ .start program refs brings)
    (h : ∀ c l o, ¬b.Hears c l o m) : Deed.registration? asked ⟨b, m⟩ = none := by
  rcases hd : Deed.heard? ⟨b, m⟩ with _ | ⟨c, l, who⟩
  · cases m with
    | start program refs brings => exact absurd rfl (hm program refs brings)
    | _ =>
      simp only [Deed.registration?]
      rw [hd]
      rfl
  · obtain ⟨raw, hraw, -⟩ := Deed.heard?_eq_some.1 hd
    exact absurd hraw (h c l (.ok raw))

end

/-! ## What a call does in a move -/

/-- What a move does to a call that goes on: what was left of it before, what is left of it
afterwards, and what has become of the members. -/
inductive Onward (b : Broker Result) (m : Move Result) (c : Nat) :
    Program Result → Program Result → Standing → Prop where
  | waits {p : Program Result} (h : ∀ c l o, ¬b.Hears c l o m) : Onward b m c p p b.standing
  | acts {a : Act} {next : a.Answer → Program Result} (h : ∀ c l o, ¬b.Hears c l o m) :
      Onward b m c (.act a next) (next (b.act a).1) (b.act a).2.standing
  | turns {r : Ref} {turn : Turn} {next : turn.Answer → Program Result}
      (h : ∀ c l o, ¬b.Hears c l o m) :
      Onward b m c (.wait (.enter r turn) next) (next (b.take r.number turn).1)
        (b.take r.number turn).2.standing
  | hears {l : Nat} {next : Outcome → Program Result} {o : Outcome} (h : b.Hears c l o m) :
      Onward b m c (.wait (.greet l) next) (next o) b.standing

/-- What happens to members without any call: a worker connects, or a member that is not registered
loses its connection. -/
inductive Standing.Rests (s : Standing) : Standing → Prop where
  | same : s.Rests s
  | accepted : s.Rests s.accept
  | released {n : Nat} (h : ∀ id r, Table.find? id s.registry = some r → r.number ≠ n) :
      s.Rests (s.disconnect n)

namespace Broker

variable {b b' : Broker Result} {m : Move Result} {c : Nat}

/-- A member that is not in use is not registered. -/
theorem not_registered_of_isInUse {n : Nat} (h : b.isInUse n = false) {id : UInt32} {r : Ref}
    (hr : Table.find? id b.registry = some r) : r.number ≠ n := by
  rintro rfl
  have : b.isInUse r.number := by
    simp only [isInUse, Bool.or_eq_true, List.any_eq_true]
    exact .inl (.inl ⟨_, Table.mem_of_find? hr, beq_self_eq_true _⟩)
  rw [h] at this
  cases this

/-- A call that does not move goes on if it did. -/
theorem isActive_step (hm : b.step m = some b') (h : b.mover? m ≠ some c) :
    b'.IsActive c ↔ b.IsActive c := by
  rw [isActive_iff, isActive_iff, phase?_step hm h]

/-- A move that starts no call and gives none up is made without any call, or one of them goes on,
provided that none talks to members. -/
theorem onward_of_step (ho : b.InOrder) (hm : b.step m = some b')
    (hstart : ∀ program refs brings, m ≠ .start program refs brings)
    (hleave : ∀ c, m ≠ .abandon c)
    (hsilent : ∀ c commands next, b.left? c ≠ some (.wait (.converse commands) next)) :
    (b.mover? m = none ∧ b.standing.Rests b'.standing ∧ ∀ c l o, ¬b.Hears c l o m) ∨
      ∃ c p q, b.mover? m = some c ∧ b.IsActive c ∧ b.left? c = some p ∧ b'.left? c = some q ∧
        Onward b m c p q b'.standing := by
  have htalk : ∀ {t : Ticket} {n l d : Nat}, b.talking? t ≠ some (n, l, d) := by
    intro t n l d ht
    obtain ⟨legs, next, leg, hp, -⟩ := leg_of_talking? ht
    exact hsilent _ _ _ (left?_of_phase hp)
  cases makes_of_step hm with
  | starts program refs brings => exact absurd rfl (hstart program refs brings)
  | abandons _ _ _ => exact absurd rfl (hleave _)
  | accepts =>
    refine .inl ⟨rfl, ?_, fun _ _ _ => id⟩
    rw [standing_accept]
    exact .accepted
  | signals l s =>
    refine .inl ⟨rfl, ?_, fun _ _ _ => id⟩
    rw [standing_changeLink b l (Link.closed_arrive s _)]
    exact .same
  | releases _ hu =>
    refine .inl ⟨rfl, ?_, fun _ _ _ => id⟩
    rw [standing_disconnect]
    exact .released fun id r hr => not_registered_of_isInUse hu hr
  | passes time => exact .inl ⟨rfl, .same, fun _ _ _ => id⟩
  | receives ht _ | supersedes ht _ _ | expires ht _ => exact absurd ht htalk
  | begins _ hp _ => exact absurd (left?_of_phase hp) (hsilent _ _ _)
  | @hears c l d next o rest hp hr =>
    refine .inr ⟨c, _, _, rfl, isActive_of_phase hp fun _ _ => rfl, left?_of_phase hp,
      left?_of_phase (phase?_setPhase_self hp), ?_⟩
    rw [standing_setPhase, standing_changeLink b l (Link.closed_of_receive? hr)]
    exact .hears ⟨rfl, ⟨d, next, hp⟩, rest, hr⟩
  | @givesUp c l d next hp _ =>
    exact .inr ⟨c, _, _, rfl, isActive_of_phase hp fun _ _ => rfl, left?_of_phase hp,
      left?_of_phase (phase?_setPhase_self hp), .hears ⟨rfl, ⟨d, next, hp⟩, rfl⟩⟩
  | @turns n t rest r turn next hn hp =>
    obtain ⟨rfl, -⟩ := ho.waitsAt hn hp
    have hp' : ((b.take r.number turn).2.serveNext r.number).phase? t.call =
        some (.entering r turn next) := (phase?_take ..).trans hp
    refine .inr ⟨t.call, _, _, mover?_serve hn, isActive_of_phase hp fun _ _ => rfl,
      left?_of_phase hp, left?_of_phase (phase?_setPhase_self hp'), ?_⟩
    rw [standing_setPhase, standing_serveNext]
    exact .turns fun _ _ _ => id
  | @runs c p hp =>
    have hnot : (∀ l next, p = .wait (.greet l) next → (b.link l).isWritable) →
        ∀ k l o, ¬b.Hears k l o (.run c) := by
      rintro hw k l o ⟨rfl, ⟨next, hp'⟩, hl, -⟩
      cases hp.symm.trans hp'
      rw [hw l next rfl] at hl
      cases hl
    cases p with
    | done x =>
      exact .inr ⟨c, _, _, rfl, isActive_of_phase hp fun _ _ => rfl, left?_of_phase hp,
        left?_of_phase (phase?_setPhase_self hp), .waits (hnot fun _ _ h => by cases h)⟩
    | act a next =>
      have hp' : ((b.act a).2.meet c (refsOf a (b.act a).1)).phase? c =
          some (.running (.act a next)) := ((phase?_meet ..).trans (b.phase?_act a c)).trans hp
      exact .inr ⟨c, _, _, rfl, isActive_of_phase hp fun _ _ => rfl, left?_of_phase hp,
        left?_of_phase (phase?_setPhase_self hp'), .acts (hnot fun _ _ h => by cases h)⟩
    | wait w next =>
      refine .inr ⟨c, .wait w next, ?_⟩
      cases w with
      | converse commands => exact absurd (left?_of_phase hp) (hsilent _ _ _)
      | enter r turn =>
        refine ⟨_, rfl, isActive_of_phase hp fun _ _ => rfl, left?_of_phase hp,
          left?_of_phase (phase?_setPhase_self (b := b.queueUp r.number ⟨c, 0⟩) hp), ?_⟩
        rw [stepProgram, beginWait, standing_setPhase, standing_queueUp]
        exact .waits (hnot fun _ _ h => by cases h)
      | greet l =>
        simp only [stepProgram, beginWait]
        split
        · rename_i hw
          refine ⟨_, rfl, isActive_of_phase hp fun _ _ => rfl, left?_of_phase hp,
            left?_of_phase (phase?_setPhase_self (b := b.changeLink l _) hp), ?_⟩
          rw [standing_setPhase, standing_changeLink b l rfl]
          exact .waits (hnot fun l' next' e => by cases e; exact hw)
        · rename_i hw
          exact ⟨_, rfl, isActive_of_phase hp fun _ _ => rfl, left?_of_phase hp,
            left?_of_phase (phase?_setPhase_self hp),
            .hears ⟨rfl, ⟨next, hp⟩, Bool.eq_false_iff.2 hw, rfl⟩⟩

end Broker

/-! ## The members are what the book says -/

/-- The registry and the members are what the book says, except for one member at most, on which a
registration is still at work. -/
structure Reflects (s : Standing) (book : Book) (except : Option Nat) : Prop where
  registered : ∀ id, Table.find? id s.registry = (Table.find? id book.entries).map Prod.fst
  made : s.members.length = book.made
  live : ∀ id r l, Table.find? id book.entries = some (r, l) → except ≠ some r.number →
    (s.member r.number).retired = false ∧
      (s.member r.number).channel = some ⟨l, (s.member r.number).generation⟩
  gone : ∀ n, book.Lacks n → except ≠ some n →
    (s.member n).retired ∧ (s.member n).channel = none
  dropped : ∀ l ∈ book.dropped, s.IsClosed l ∨
    ∃ n ch, except = some n ∧ (s.member n).channel = some ch ∧ ch.link = l

namespace Reflects

variable {s s' : Standing} {β : Nat → Burden} {book : Book} {except : Option Nat}
  {x : Registration} {r : Ref} {n l : Nat}

/-- Whoever is registered is in the book. -/
theorem find? (h : Reflects s book except) {id : UInt32}
    (hr : Table.find? id s.registry = some r) :
    ∃ l, Table.find? id book.entries = some (r, l) := by
  rw [h.registered, Option.map_eq_some_iff] at hr
  obtain ⟨⟨r', l⟩, hr, rfl⟩ := hr
  exact ⟨l, hr⟩

theorem registers (h : Reflects s book except) {id : UInt32}
    (hr : Table.find? id book.entries = some (r, l)) : Table.find? id s.registry = some r := by
  rw [h.registered, hr, Option.map_some]

/-- Nothing has happened. -/
theorem fresh {ω : Type} (timeout : Nat) :
    Reflects (Broker.fresh timeout : Broker ω).standing (.of []) none where
  registered _ := rfl
  made := rfl
  live := nofun
  gone n hn := absurd hn.1 (Nat.not_lt_zero n)
  dropped := nofun

/-- What happens without a call is not in the book. -/
theorem rests (h : Reflects s book except) (hheld : s.Held β) (hs : s.Rests s') :
    Reflects s' book except := by
  cases hs with
  | same => exact h
  | accepted => exact { h with dropped := fun l hl => (h.dropped l hl).imp_left .accept }
  | @released n hn =>
    constructor
    · intro id
      rw [Standing.registry_disconnect, h.registered]
    · rw [Standing.length_disconnect, h.made]
    · intro id r l hr hne
      rw [Standing.member_disconnect_ne s (hn id r (h.registers hr))]
      exact h.live id r l hr hne
    · intro k hk hne
      by_cases hkn : k = n
      · subst hkn
        rw [Standing.member_disconnect_self]
        exact ⟨(h.gone k hk hne).1, rfl⟩
      · rw [Standing.member_disconnect_ne s hkn]
        exact h.gone k hk hne
    · intro l hl
      rcases h.dropped l hl with hclosed | ⟨k, ch, hk, hch, rfl⟩
      · exact .inl (hclosed.disconnect n)
      · exact (Standing.channel_disconnect hheld n hch).symm.imp_right fun hch =>
          ⟨k, ch, hk, hch, rfl⟩

/-- A new member is registered. One that it displaces is still to be shut. -/
theorem enrol (h : Reflects s book none) (hp : book.Proper) (x : Registration)
    (hk : ∀ r l, Table.find? x.id book.entries = some (r, l) → r.kind ≠ x.kind) :
    Reflects (s.enrol x.kind x.id x.link) (book.register x)
      ((Table.find? x.id book.entries).map fun e => e.1.number) := by
  have hentries : (book.register x).entries =
        Table.put x.id (⟨book.made, x.kind, x.id⟩, x.link) book.entries ∧
      (book.register x).made = book.made + 1 := by
    rcases hf : Table.find? x.id book.entries with _ | ⟨r, l⟩
    · rw [Book.register_of_none hf]
      exact ⟨rfl, rfl⟩
    · rw [Book.register_of_other hf (hk r l hf)]
      exact ⟨rfl, rfl⟩
  obtain ⟨hentries, hmade⟩ := hentries
  constructor
  · intro id
    rw [hentries, Standing.enrol, Table.find?_put, Table.find?_put, h.made]
    split
    · rfl
    · exact h.registered id
  · rw [hmade, Standing.length_enrol, h.made]
  · intro id r l hr hne
    rw [hentries, Table.find?_put] at hr
    split at hr
    · cases hr
      rw [← h.made, Standing.member_enrol_new]
      exact ⟨rfl, rfl⟩
    · rw [Standing.member_enrol_old _ _ _ (h.made ▸ (hp id r l hr).2)]
      exact h.live id r l hr fun hnone => by cases hnone
  · intro n hn hne
    have hlacks : book.Lacks n := by
      refine ⟨?_, fun id r l hr hrn => ?_⟩
      · have hnew := hn.2 x.id _ x.link (by rw [hentries, Table.find?_put, if_pos rfl])
        have := hn.1
        dsimp only at hnew
        omega
      · by_cases hid : id = x.id
        · subst hid
          exact hne (by rw [hr, ← hrn]; rfl)
        · exact hn.2 id r l (by rw [Book.find?_register_ne _ hid, hr]) hrn
    rw [Standing.member_enrol_old _ _ _ (h.made ▸ hlacks.1)]
    exact h.gone n hlacks fun hnone => by cases hnone
  · intro l hl
    have hold : ∀ l ∈ book.dropped, s.IsClosed l := by
      intro l hl
      rcases h.dropped l hl with hclosed | ⟨k, ch, hk, -⟩
      · exact hclosed
      · cases hk
    rcases hf : Table.find? x.id book.entries with _ | ⟨r, old⟩
    · rw [Book.register_of_none hf] at hl
      exact .inl (hold l hl)
    · rw [Book.register_of_other hf (hk r old hf)] at hl
      rcases List.mem_cons.1 hl with rfl | hl
      · refine .inr ⟨r.number, ⟨l, (s.member r.number).generation⟩, rfl, ?_, rfl⟩
        rw [Standing.member_enrol_old _ _ _ (h.made ▸ (hp _ r l hf).2)]
        exact (h.live _ r l hf fun hnone => by cases hnone).2
      · exact .inl (hold l hl)

/-- A connection is closed. -/
theorem hangUp (h : Reflects s book except) (l : Nat) : Reflects (s.hangUp l) book except :=
  { h with dropped := fun k hk => (h.dropped k hk).imp_left fun hclosed => hclosed.hangUp l }

/-- A call begins to change a member whose connection it leaves alone for now. -/
theorem change (h : Reflects s book except) (he : except = none ∨ except = some n)
    {f : Member → Member} (hf : ∀ m, (f m).channel = m.channel) :
    Reflects (s.change n f) book (some n) where
  registered := h.registered
  made := by rw [Standing.length_change, h.made]
  live id r l hr hne := by
    have hrn : r.number ≠ n := fun e => hne (by rw [e])
    rw [Standing.member_change_ne f s hrn]
    refine h.live id r l hr ?_
    rcases he with rfl | rfl
    · exact nofun
    · exact hne
  gone k hk hne := by
    have hkn : k ≠ n := fun e => hne (by rw [e])
    rw [Standing.member_change_ne f s hkn]
    refine h.gone k hk ?_
    rcases he with rfl | rfl
    · exact nofun
    · exact hne
  dropped l hl := by
    refine (h.dropped l hl).imp_right fun ⟨k, ch, hk, hch, hl⟩ => ?_
    rcases he with rfl | rfl
    · cases hk
    · obtain rfl := Option.some.inj hk
      exact ⟨n, ch, rfl, by rw [Standing.channel_change hf, hch], hl⟩

/-- What the member had is closed, if the call that is at work on it disconnects it. -/
theorem isClosed_of_dropped (h : Reflects s book (some n)) (hheld : s.Held β)
    (hl : l ∈ book.dropped) : (s.disconnect n).IsClosed l := by
  rcases h.dropped l hl with hclosed | ⟨k, ch, hk, hch, rfl⟩
  · exact hclosed.disconnect n
  · obtain rfl := Option.some.inj hk
    exact Standing.isClosed_disconnect hheld hch

/-- The member takes the connection. -/
theorem take (h : Reflects s book (some r.number)) (hp : book.Proper) (ha : book.Apart)
    (hheld : s.Held β) {old g : Nat} (hr : Table.find? x.id book.entries = some (r, old))
    (hk : r.kind = x.kind) (hlives : (s.member r.number).retired = false)
    (hch : (s.member r.number).channel = some ⟨old, g⟩) :
    Reflects ((s.disconnect r.number).change r.number fun m =>
      { m with channel := some ⟨x.link, (s.member r.number).generation⟩ }) (book.register x)
      none := by
  have hentries := Book.register_of_same hr hk
  have hlt : r.number < (s.disconnect r.number).members.length := by
    rw [Standing.length_disconnect, h.made]
    exact (hp _ r old hr).2
  have hother : ∀ {f : Member → Member} {k}, k ≠ r.number →
      ((s.disconnect r.number).change r.number f).member k = s.member k := fun hk => by
    rw [Standing.member_change_ne _ _ hk, Standing.member_disconnect_ne s hk]
  constructor
  · intro id
    rw [Standing.registry_change, Standing.registry_disconnect, h.registered, hentries,
      Table.find?_put]
    split
    · rename_i hid
      rw [hid, hr]
      rfl
    · rfl
  · rw [Standing.length_change, Standing.length_disconnect, h.made, hentries]
  · intro id r' l hr' _
    rw [hentries, Table.find?_put] at hr'
    split at hr'
    · cases hr'
      rw [Standing.member_change_self hlt, Standing.member_disconnect_self]
      exact ⟨hlives, rfl⟩
    · rename_i hid
      have hne : r'.number ≠ r.number := fun e => hid (ha _ _ _ _ _ _ hr' hr e)
      rw [hother hne]
      exact h.live id r' l hr' fun e => hne (Option.some.inj e).symm
  · intro n hn _
    have hne : n ≠ r.number := fun e =>
      hn.2 x.id r x.link (by rw [hentries, Table.find?_put, if_pos rfl]) e.symm
    rw [hother hne]
    refine h.gone n ⟨?_, fun id r' l hr' hn' => ?_⟩ fun e => hne (Option.some.inj e).symm
    · have := hn.1
      rwa [hentries] at this
    · by_cases hid : id = x.id
      · subst hid
        cases hr.symm.trans hr'
        exact hne hn'.symm
      · exact hn.2 id r' l (by rw [Book.find?_register_ne _ hid, hr']) hn'
  · intro l hl
    rw [hentries] at hl
    rcases List.mem_cons.1 hl with rfl | hl
    · exact .inl (Standing.isClosed_disconnect hheld hch)
    · exact .inl (h.isClosed_of_dropped hheld hl)

/-- The member that was displaced is shut. -/
theorem shut (h : Reflects s book (some n)) (hheld : s.Held β) (hn : book.Lacks n) :
    Reflects ((s.disconnect n).change n fun m => { m with retired := true }) book none := by
  have hother : ∀ {f : Member → Member} {k}, k ≠ n →
      ((s.disconnect n).change n f).member k = s.member k := fun hk => by
    rw [Standing.member_change_ne _ _ hk, Standing.member_disconnect_ne s hk]
  constructor
  · intro id
    rw [Standing.registry_change, Standing.registry_disconnect, h.registered]
  · rw [Standing.length_change, Standing.length_disconnect, h.made]
  · intro id r l hr _
    have hne := hn.2 id r l hr
    rw [hother hne]
    exact h.live id r l hr fun e => hne (Option.some.inj e).symm
  · intro k hk _
    by_cases hkn : k = n
    · subst hkn
      rw [Standing.member_change_self (by rw [Standing.length_disconnect, h.made]; exact hn.1),
        Standing.member_disconnect_self]
      exact ⟨rfl, rfl⟩
    · rw [hother hkn]
      exact h.gone k hk fun e => hkn (Option.some.inj e).symm
  · exact fun l hl => .inl (h.isClosed_of_dropped hheld hl)

end Reflects

/-! ## The stages of a registration -/

/-- How the program of a registration ends. -/
def finish : Unit → Program Result := fun _ => .done .done

/-- It places the connection with the member that is registered, if that has its kind, and with a
new one otherwise. -/
def Places (x : Registration) (next : Option Ref → Program Result) : Prop :=
  next none = (Program.install x.kind x.id x.link).bind finish ∧
    ∀ r, r.id = x.id → (r.kind = .primary ↔ r.id = primaryId) →
      next (some r) =
        if r.kind = x.kind then (Program.reconnect r x.kind x.id x.link).bind finish
        else (Program.install x.kind x.id x.link).bind finish

/-- How far a registration is: who has registered so far, and what is left of the call. -/
inductive Stage (s : Standing) : List Registration → Program Result → Prop where
  | asks {history : List Registration} {l : Nat} (h : Reflects s (.of history) none) :
      Stage s history (Operation.registerSecondary l).program
  | rejects {history : List Registration} {l : Nat} (h : Reflects s (.of history) none) :
      Stage s history ((Program.discard l).bind finish)
  | looksUp {history : List Registration} {x : Registration} {next : Option Ref → Program Result}
      (hnext : Places x next) (h : Reflects s (.of history) none) :
      Stage s (history ++ [x]) (.act (.find x.id) next)
  | installs {history : List Registration} {x : Registration}
      (hk : ∀ r l, Table.find? x.id (Book.of history).entries = some (r, l) → r.kind ≠ x.kind)
      (h : Reflects s (.of history) none) :
      Stage s (history ++ [x]) ((Program.install x.kind x.id x.link).bind finish)
  | announces {history : List Registration} {x : Registration} {r : Ref} {l : Nat}
      (hr : Table.find? x.id (Book.of history).entries = some (r, l)) (hk : r.kind = x.kind)
      (h : Reflects s (.of history) none) :
      Stage s (history ++ [x]) ((Program.reconnect r x.kind x.id x.link).bind finish)
  | offers {history : List Registration} {x : Registration} {r : Ref} {l g : Nat}
      {next : Offered → Program Result}
      (hr : Table.find? x.id (Book.of history).entries = some (r, l)) (hk : r.kind = x.kind)
      (hlives : (s.member r.number).retired = false)
      (hch : (s.member r.number).channel = some ⟨l, g⟩)
      (hnext : next .taken = .done .done) (h : Reflects s (.of history) (some r.number)) :
      Stage s (history ++ [x])
        (.wait (.enter r (.offer (s.member r.number).generation x.link)) next)
  | closes {history : List Registration} {r : Ref} (hr : (Book.of history).Lacks r.number)
      (h : Reflects s (.of history) (some r.number)) :
      Stage s history ((Program.close r).bind finish)
  | shuts {history : List Registration} {r : Ref} (hr : (Book.of history).Lacks r.number)
      (h : Reflects s (.of history) (some r.number)) : Stage s history (shutting r)
  | finished {history : List Registration} (h : Reflects s (.of history) none) :
      Stage s history (.done .done)

namespace Stage

variable {s s' : Standing} {history : List Registration} {p : Program Result}

/-- A call that is over has done its part. -/
theorem of_done {x : Result} (h : Stage s history (.done x)) : Reflects s (.of history) none := by
  cases h with
  | finished h => exact h

/-- Registrations do not talk to members. -/
theorem silent {commands : List (Ref × Command)} {next : List Outcome → Program Result}
    (h : Stage s history (.wait (.converse commands) next)) : False := by
  cases h

/-- What happens without a call is no step of a registration. -/
theorem rests {β : Nat → Burden} (h : Stage s history p) (hheld : s.Held β) (hs : s.Rests s') :
    Stage s' history p := by
  cases h with
  | asks h => exact .asks (h.rests hheld hs)
  | rejects h => exact .rejects (h.rests hheld hs)
  | looksUp hnext h => exact .looksUp hnext (h.rests hheld hs)
  | installs hk h => exact .installs hk (h.rests hheld hs)
  | announces hr hk h => exact .announces hr hk (h.rests hheld hs)
  | @offers history x r l g next hr hk hlives hch hnext h =>
    -- the member is registered, so it does not lose its connection
    have hsame : s'.member r.number = s.member r.number := by
      cases hs with
      | same | accepted => rfl
      | released hn => exact Standing.member_disconnect_ne s (hn x.id r (h.registers hr))
    rw [← hsame] at hlives hch ⊢
    exact .offers hr hk hlives hch hnext (h.rests hheld hs)
  | closes hr h => exact .closes hr (h.rests hheld hs)
  | shuts hr h => exact .shuts hr (h.rests hheld hs)
  | finished h => exact .finished (h.rests hheld hs)

/-- A registration of the primary begins. -/
theorem primary (h : Reflects s (.of history) none) (l : Nat) :
    Stage s (history ++ [⟨.primary, primaryId, l⟩])
      (Operation.registerPrimary l).program := by
  refine .looksUp (x := ⟨.primary, primaryId, l⟩) ⟨rfl, fun r hid hkind => ?_⟩ h
  rw [if_pos (hkind.2 hid)]
  rfl

/-- A secondary has said who it is. -/
theorem identified (h : Reflects s (.of history) none) (x : Registration) :
    Stage s (history ++ [x]) ((Program.registerAs x.kind x.id x.link).bind finish) := by
  refine .looksUp ⟨rfl, fun r hid hkind => ?_⟩ h
  by_cases hk : r.kind = x.kind
  · rw [if_pos hk]
    change (if r.kind = x.kind then _ else _ : Program Unit).bind finish = _
    rw [if_pos hk]
  · rw [if_neg hk]
    change (if r.kind = x.kind then _ else _ : Program Unit).bind finish = _
    rw [if_neg hk]

variable {asked : Nat → Operation} {b : Broker Result} {m : Move Result} {β : Nat → Burden}
  {c : Nat} {q : Program Result}

/-- The answer to the question who the worker is. -/
theorem answered (h : Reflects s (.of history) none) (l : Nat) (o : Outcome) :
    Stage s (history ++ ((identity? o).map fun who => ⟨who.1, who.2, l⟩).toList)
      ((match Program.whoAnswered o with
        | .ok (kind, id) => Program.registerAs kind id l
        | .error _ => Program.discard l).bind finish) := by
  rcases ho : Program.whoAnswered o with e | ⟨kind, id⟩
  · simp only [identity?, ho]
    rw [Option.map_none, Option.toList_none, List.append_nil]
    exact .rejects h
  · simp only [identity?, ho]
    exact .identified h ⟨kind, id, l⟩

/-- The registry is asked for the id of the worker. -/
theorem found {x : Registration} {next : Option Ref → Program Result} (hs : s.Sound β)
    (hnext : Places x next) (h : Reflects s (.of history) none) :
    Stage s (history ++ [x]) (next (Table.find? x.id s.registry)) := by
  rcases hf : Table.find? x.id s.registry with _ | r
  · rw [hnext.1]
    refine .installs (fun r l hr => ?_) h
    cases hf.symm.trans (h.registers hr)
  · obtain ⟨hid, hg⟩ := hs.keyed _ _ hf
    obtain ⟨l, hr⟩ := h.find? hf
    rw [hnext.2 r hid (hs.primary_iff hg)]
    split
    · rename_i hk
      exact .announces hr hk h
    · rename_i hk
      refine .installs (fun r' l' hr' => ?_) h
      cases hr.symm.trans hr'
      exact hk

/-- A new member is registered. -/
theorem installed {x : Registration} (h : Reflects s (.of history) none)
    (hk : ∀ r l, Table.find? x.id (Book.of history).entries = some (r, l) → r.kind ≠ x.kind) :
    Stage (s.enrol x.kind x.id x.link) (history ++ [x])
      ((match Table.find? x.id s.registry with
        | some displaced => Program.close displaced
        | none => .done ()).bind finish) := by
  have hproper := (Book.proper_of history).1
  have henrol := h.enrol hproper x hk
  rw [← Book.of_snoc] at henrol
  rw [h.registered]
  rcases hf : Table.find? x.id (Book.of history).entries with _ | ⟨r, l⟩
  · rw [hf] at henrol
    exact .finished henrol
  · rw [hf] at henrol
    refine .closes ?_ henrol
    rw [Book.of_append]
    exact Book.lacks_of_other hproper (Book.proper_of history).2 hf
      ⟨x, List.mem_singleton_self x, rfl, Ne.symm (hk r l hf)⟩

/-- A connection is announced to the member that it is for. -/
theorem announced {x : Registration} {r : Ref} {l : Nat} {next : Offered → Program Result}
    (hr : Table.find? x.id (Book.of history).entries = some (r, l)) (hk : r.kind = x.kind)
    (hnext : next .taken = .done .done) (h : Reflects b.standing (.of history) none) :
    Stage (b.act (.advance r)).2.standing (history ++ [x])
      (.wait (.enter r (.offer (b.act (.advance r)).1 x.link)) next) := by
  have hlt : r.number < b.standing.members.length :=
    h.made ▸ ((Book.proper_of history).1 _ _ _ hr).2
  obtain ⟨hlives, hch⟩ := h.live _ _ _ hr nofun
  rw [standing_advance]
  have hg : (b.act (.advance r)).1 = ((b.standing.change r.number fun m =>
      { m with generation := m.generation + 1 }).member r.number).generation := by
    rw [Standing.member_change_self hlt, generation_standing]
    rfl
  rw [hg]
  refine .offers hr hk ?_ (g := (b.standing.member r.number).generation) ?_ hnext
    (h.change (.inl rfl) fun _ => rfl)
  · rw [Standing.member_change_self hlt]
    exact hlives
  · rw [Standing.member_change_self hlt]
    exact hch

/-- The member takes the connection, since nobody has announced another one meanwhile. -/
theorem taken {x : Registration} {r : Ref} {l g : Nat} {next : Offered → Program Result}
    (hr : Table.find? x.id (Book.of history).entries = some (r, l)) (hk : r.kind = x.kind)
    (hlives : (b.standing.member r.number).retired = false)
    (hch : (b.standing.member r.number).channel = some ⟨l, g⟩)
    (hnext : next .taken = .done .done) (hheld : b.standing.Held β)
    (h : Reflects b.standing (.of history) (some r.number)) :
    Stage (b.take r.number (.offer (b.standing.member r.number).generation x.link)).2.standing
      (history ++ [x])
      (next (b.take r.number (.offer (b.standing.member r.number).generation x.link)).1) := by
  have htaken : (b.take r.number (.offer (b.standing.member r.number).generation x.link)).1 =
      Offered.taken := by
    rw [retired_standing] at hlives
    rw [generation_standing]
    rw [take, if_neg (by rw [hlives]; exact Bool.false_ne_true), if_neg (not_not_intro rfl)]
  obtain ⟨-, -, hst⟩ := take_offer_taken htaken
  obtain ⟨hproper, hapart⟩ := Book.proper_of history
  rw [htaken, hnext, hst]
  refine .finished ?_
  rw [Book.of_snoc]
  exact h.take hproper hapart hheld hr hk hlives hch

/-- A registration goes from one stage to the next. -/
theorem step (h : Stage b.standing history p) (hc : Course asked b β)
    (ho : Onward b m c p q s') (hm : ∀ program refs brings, m ≠ .start program refs brings) :
    Stage s' (history ++ (Deed.registration? asked ⟨b, m⟩).toList) q := by
  cases ho with
  | waits hno =>
    rw [registration?_of_not_hears hm hno, Option.toList_none, List.append_nil]
    exact h
  | hears hh =>
    rw [registration?_of_hears hh]
    cases h with
    | asks h => exact .answered h _ _
  | acts hno =>
    rw [registration?_of_not_hears hm hno, Option.toList_none, List.append_nil]
    cases h with
    | @rejects _ l h =>
      refine .finished ?_
      change Reflects (b.hangUp l).standing _ _
      rw [standing_hangUp]
      exact h.hangUp l
    | looksUp hnext h => exact .found hc.sound hnext h
    | installs hk h =>
      rw [standing_enrol]
      exact .installed h hk
    | announces hr hk h => exact .announced hr hk rfl h
    | closes hr h =>
      rw [standing_advance]
      exact .shuts hr (h.change (.inr rfl) fun _ => rfl)
  | turns hno =>
    rw [registration?_of_not_hears hm hno, Option.toList_none, List.append_nil]
    cases h with
    | offers hr hk hlives hch hnext h => exact .taken hr hk hlives hch hnext hc.held h
    | shuts hr h =>
      rw [standing_shut]
      exact .finished (h.shut hc.held hr)

end Stage

/-! ## One registration after the other -/

/-- Whether it is the registration of a worker. -/
def Operation.Registers : Operation → Prop
  | registerPrimary _ | registerSecondary _ => True
  | _ => False

/-- Whether a call is started. -/
def Move.IsStart {ω : Type} : Move ω → Prop
  | .start _ _ _ => True
  | _ => False

/-- No call goes on. -/
def Broker.IsIdle {ω : Type} (b : Broker ω) : Prop :=
  ∀ call ∈ b.calls, call.isActive = false

/-- Nothing is started but registrations, and none before the last one is over. -/
def Successive (asked : Nat → Operation) (past : List (Deed Result)) : Prop :=
  ∀ d ∈ past, d.move.IsStart → (asked d.before.calls.length).Registers ∧ d.before.IsIdle

/-- Registrations have been made one after the other, and one is under way at most. -/
structure Broker.Proceeds (asked : Nat → Operation) (b : Broker Result) (history : List Registration) :
    Prop where
  registers : ∀ c < b.calls.length, (asked c).Registers
  alone : ∀ c d, b.IsActive c → b.IsActive d → c = d
  stage : ∀ c, b.IsActive c → ∃ p, b.left? c = some p ∧ Stage b.standing history p
  settled : b.IsIdle → Reflects b.standing (.of history) none

namespace Broker

variable {asked : Nat → Operation} {b b' : Broker Result} {m : Move Result} {β β' : Nat → Burden}
  {c : Nat} {past : List (Deed Result)} {history : List Registration} {timeout : Nat}

theorem isIdle_iff : b.IsIdle ↔ ∀ c, ¬b.IsActive c := by
  constructor
  · rintro h c ⟨call, hcall, hact⟩
    rw [h call (List.mem_of_getElem? hcall)] at hact
    cases hact
  · intro h call hcall
    obtain ⟨c, hc⟩ := List.getElem?_of_mem hcall
    exact Bool.eq_false_iff.2 fun hact => h c ⟨call, hc, hact⟩

/-- Nothing has happened. -/
theorem Proceeds.fresh (asked : Nat → Operation) (timeout : Nat) :
    Proceeds asked (fresh timeout) [] where
  registers _ hc := absurd hc (Nat.not_lt_zero _)
  alone _ _ hc := absurd hc.lt_length (Nat.not_lt_zero _)
  stage _ hc := absurd hc.lt_length (Nat.not_lt_zero _)
  settled _ := .fresh timeout

/-- A registration begins when no other one is under way. -/
theorem Proceeds.start {program : Program Result} {refs : List Ref} {brings : Option Nat}
    (h : Proceeds asked b history) (hidle : b.IsIdle) (hop : (asked b.calls.length).Registers)
    (ha : Operation.Starts asked b (.start program refs brings)) :
    Proceeds asked { b with calls := b.calls ++ [⟨.running program, refs, brings⟩] }
      (history ++ (Deed.registration? asked ⟨b, .start program refs brings⟩).toList) := by
  obtain ⟨-, rfl, -, -⟩ := ha
  have hactive : ∀ k, IsActive { b with
      calls := b.calls ++ [⟨.running (asked b.calls.length).program, refs, brings⟩] } k →
      k = b.calls.length := by
    rintro k ⟨call, hcall, hact⟩
    rcases getElem?_concat_cases hcall with ⟨-, hcall⟩ | ⟨rfl, -⟩
    · exact absurd ⟨call, hcall, hact⟩ (isIdle_iff.1 hidle k)
    · rfl
  refine ⟨fun c hc => ?_, fun c d hc hd => (hactive c hc).trans (hactive d hd).symm,
    fun c hc => ?_, fun hnone => ?_⟩
  · rw [List.length_append, List.length_singleton] at hc
    rcases Nat.lt_succ_iff_lt_or_eq.1 hc with hc | rfl
    · exact h.registers c hc
    · exact hop
  · obtain rfl := hactive c hc
    refine ⟨(asked b.calls.length).program, ?_, ?_⟩
    · simp [left?, phase?, Phase.left?]
    · change Stage b.standing _ _
      simp only [Deed.registration?]
      cases hasked : asked b.calls.length with
      | registerPrimary l => exact .primary (h.settled hidle) l
      | registerSecondary l =>
        rw [Option.toList_none, List.append_nil]
        exact .asks (h.settled hidle)
      | _ =>
        rw [hasked] at hop
        exact hop.elim
  · refine absurd ⟨⟨.running (asked b.calls.length).program, refs, brings⟩, ?_, rfl⟩
      (isIdle_iff.1 hnone b.calls.length)
    exact List.getElem?_concat_length

/-- Every move keeps it up. -/
theorem Proceeds.step (h : Proceeds asked b history) (ha : Operation.Starts asked b m)
    (hs : m.IsStart → (asked b.calls.length).Registers ∧ b.IsIdle)
    (hm : Stride asked b m β b' β') :
    Proceeds asked b' (history ++ (Deed.registration? asked ⟨b, m⟩).toList) := by
  by_cases hstart : m.IsStart
  · cases m with
    | start program refs brings =>
      have hstep := hm.step
      cases hstep
      exact h.start (hs hstart).2 (hs hstart).1 ha
    | _ => exact hstart.elim
  have hnot : ∀ program refs brings, m ≠ .start program refs brings := by
    rintro program refs brings rfl
    exact hstart trivial
  have hleave : ∀ c, m ≠ .abandon c := by
    rintro c rfl
    cases makes_of_step hm.step with
    | abandons hcall _ _ =>
      have hop := h.registers c (List.getElem?_eq_some_iff.1 hcall).1
      cases hasked : asked c with
      | registerPrimary l | registerSecondary l =>
        exact hm.before.calls.not_abandoned hm.step (by rw [hasked]; rfl) rfl
      | _ =>
        rw [hasked] at hop
        exact hop
  have hsilent : ∀ c commands next, b.left? c ≠ some (.wait (.converse commands) next) := by
    intro c commands next hl
    by_cases hc : b.IsActive c
    · obtain ⟨p, hp, hstage⟩ := h.stage c hc
      cases hl.symm.trans hp
      exact hstage.silent
    · obtain ⟨x, hx⟩ := eq_done_of_not_isActive hc hl
      cases hx
  have hlength : b'.calls.length = b.calls.length := by
    rcases calls_step hm.step with ⟨-, e⟩ | ⟨program, refs, brings, e, -⟩ | ⟨_, _, _, _, -, -, -, e⟩
    · rw [e]
    · exact absurd e (hnot program refs brings)
    · rw [e, List.length_set]
  have hregisters : ∀ c < b'.calls.length, (asked c).Registers := by
    rw [hlength]
    exact h.registers
  rcases onward_of_step hm.before.order hm.step hnot hleave hsilent with
    ⟨hmover, hrests, hno⟩ | ⟨c, p, q, hmover, hc, hp, hq, honward⟩
  · rw [registration?_of_not_hears hnot hno, Option.toList_none, List.append_nil]
    have hsame : ∀ c, b.mover? m ≠ some c := fun c e => by cases hmover.symm.trans e
    have hactive : ∀ c, b'.IsActive c ↔ b.IsActive c := fun c => isActive_step hm.step (hsame c)
    refine ⟨hregisters, fun c d hc hd => ?_, fun c hc => ?_, fun hidle => ?_⟩
    · exact h.alone c d ((hactive c).1 hc) ((hactive d).1 hd)
    · obtain ⟨p, hp, hstage⟩ := h.stage c ((hactive c).1 hc)
      exact ⟨p, by rw [← hp, left?, left?, phase?_step hm.step (hsame c)],
        hstage.rests hm.before.held hrests⟩
    · refine (h.settled (isIdle_iff.2 fun c hc => ?_)).rests hm.before.held hrests
      exact isIdle_iff.1 hidle c ((hactive c).2 hc)
  · -- nobody else was active, so nobody else is
    have hactive : ∀ k, b'.IsActive k → k = c := by
      intro k hk
      by_contra hkc
      have hk' := (isActive_step hm.step fun e => hkc (Option.some.inj (hmover.symm.trans e)).symm).1
        hk
      exact hkc (h.alone k c hk' hc)
    obtain ⟨p', hp', hstage⟩ := h.stage c hc
    obtain rfl := Option.some.inj (hp.symm.trans hp')
    have hstage' := hstage.step hm.before honward hnot
    refine ⟨hregisters, fun k d hk hd => (hactive k hk).trans (hactive d hd).symm, fun k hk => ?_,
      fun hidle => ?_⟩
    · obtain rfl := hactive k hk
      exact ⟨q, hq, hstage'⟩
    · obtain ⟨x, rfl⟩ := eq_done_of_not_isActive (isIdle_iff.1 hidle c) hq
      exact hstage'.of_done

/-- When no registration is under way, the registry and the members are what the book of all
registrations says. -/
theorem Run.reflects (hr : Run (fun _ => Operation.Starts asked) (fresh timeout) past b)
    (hs : Successive asked past) (hidle : b.IsIdle) :
    Reflects b.standing (.of (registrations asked past)) none := by
  obtain ⟨β, -, h⟩ := hr.course
    (P := fun past b _ => Successive asked past → Proceeds asked b (registrations asked past))
    (fun _ _ _ h => h) (Course.fresh asked timeout) (fun _ => .fresh asked timeout)
    fun past b m β b' β' ih ha hm hs => by
      rw [registrations_snoc]
      exact (ih fun d hd => hs d (List.mem_append_left _ hd)).step ha
        (hs _ (List.mem_append_right _ (List.mem_singleton_self _))) hm
  exact (h hs).settled hidle

/-- Registrations are made one after the other, and nothing else is asked for in between. When all
of them are over:

* the ids in the registry are those that were registered;
* under each id there is a member of the kind that was registered last, with the connection of that
  registration, which is open;
* every earlier connection of the same id is closed;
* whoever was registered at some time between two registrations is the same member still, if its id
  has been registered with no other kind since then, and is retired and not registered any more if
  it has;
* the members are shown by strictly ascending ids. -/
theorem last_registration_wins
    (hr : Run (fun _ => Operation.Starts asked) (fresh timeout) past b)
    (hs : Successive asked past) (hidle : b.IsIdle) :
    (∀ id, (Table.find? id b.registry).isSome ↔ ∃ x ∈ registrations asked past, x.id = id) ∧
    (∀ id x, ((registrations asked past).filter fun y => y.id = id).getLast? = some x →
      ∃ r, Table.find? id b.registry = some r ∧ r.kind = x.kind ∧ r.id = id ∧
        (b.member r.number).retired = false ∧
        (b.member r.number).channel = some ⟨x.link, (b.member r.number).generation⟩ ∧
        b.standing.IsOpen x.link) ∧
    (∀ xs x ys, registrations asked past = xs ++ x :: ys → (∃ y ∈ ys, y.id = x.id) →
      b.standing.IsClosed x.link) ∧
    (∀ past₁ d past₂ id r, past = past₁ ++ d :: past₂ → d.before.IsIdle →
      Table.find? id d.before.registry = some r →
      ((∀ y ∈ registrations asked (d :: past₂), y.id = id → y.kind = r.kind) →
        Table.find? id b.registry = some r) ∧
      ((∃ y ∈ registrations asked (d :: past₂), y.id = id ∧ y.kind ≠ r.kind) →
        (∀ id', Table.find? id' b.registry ≠ some r) ∧ (b.member r.number).retired ∧
          (b.member r.number).channel = none)) ∧
    ((b.act .roster).1.map Ref.id).Pairwise (· < ·) := by
  have h := hr.reflects hs hidle
  obtain ⟨β, hc, -⟩ := hr.course (P := fun _ _ _ => True) (fun _ _ _ h => h)
    (Course.fresh asked timeout) trivial fun _ _ _ _ _ _ _ _ _ => trivial
  refine ⟨fun id => ?_, fun id x hx => ?_, fun xs x ys hxs hy => ?_,
    fun past₁ d past₂ id r hpast hd hf => ?_, ?_⟩
  · rw [← Book.isSome_find?_of, ← registry_standing, h.registered, Option.isSome_map]
  · obtain ⟨r, hr, hk⟩ := Book.find?_of_last hx
    have hreg := h.registers hr
    obtain ⟨hlives, hch⟩ := h.live id r x.link hr nofun
    refine ⟨r, hreg, hk, (hc.sound.keyed id r hreg).1, ?_⟩
    rw [← retired_standing, ← channel_standing, ← generation_standing]
    exact ⟨hlives, hch, hc.held.channel _ _ hch⟩
  · refine (h.dropped x.link ?_).resolve_right fun ⟨_, _, hn, _⟩ => by cases hn
    obtain ⟨r, hr, -⟩ := (Book.of xs).find?_register_self x
    have hbook : Book.of (registrations asked past) = ((Book.of xs).register x).after ys := by
      rw [hxs, Book.of_append]
      rfl
    rw [hbook]
    exact Book.dropped_of_again hr hy
  · subst hpast
    obtain ⟨a, h₁, h₂⟩ := hr.of_append
    obtain ⟨rfl, -⟩ := h₂.of_cons
    have hbefore := h₁.reflects (fun e he => hs e (List.mem_append_left _ he)) hd
    obtain ⟨l, hl⟩ := hbefore.find? hf
    rw [registrations, List.filterMap_append, Book.of_append] at h
    refine ⟨fun hsame => ?_, fun hother => ?_⟩
    · obtain ⟨l', hr'⟩ := Book.find?_after_of_same hl hsame
      exact h.registers hr'
    · obtain ⟨hproper, hapart⟩ := Book.proper_of (registrations asked past₁)
      have hlacks := Book.lacks_of_other hproper hapart hl hother
      refine ⟨fun id' hr' => ?_, ?_⟩
      · obtain ⟨l', hl'⟩ := h.find? hr'
        exact hlacks.2 id' r l' hl' rfl
      · rw [← retired_standing, ← channel_standing]
        exact h.gone r.number hlacks nofun
  · have hids : (b.act .roster).1.map Ref.id = b.registry.map Prod.fst := by
      rw [act, List.map_map]
      exact List.map_congr_left fun e he => (hc.sound.keyed_of_mem he).1
    rw [hids, List.pairwise_map]
    exact hc.sound.ascending

end Broker

/-! ## A worker that comes back as another one -/

section

instance {ω : Type} (m : Move ω) : Decidable m.IsStart :=
  match m with
  | .start _ _ _ => inferInstanceAs (Decidable True)
  | .run _ | .serve _ | .receive _ _ | .supersede _ _ | .expire _ _ | .hear _ | .giveUp _
  | .abandon _ | .accept | .signal _ _ | .release _ | .pass _ => inferInstanceAs (Decidable False)

instance (op : Operation) : Decidable op.Registers :=
  match op with
  | .registerPrimary _ | .registerSecondary _ => inferInstanceAs (Decidable True)
  | .listing | .cpuUsage | .cpuUnused _ _ | .execute _ _ | .exit _ | .terminate _ _
  | .replaceConnection _ _ | .close _ | .retire _ => inferInstanceAs (Decidable False)

instance {ω : Type} (b : Broker ω) : Decidable b.IsIdle :=
  inferInstanceAs (Decidable (∀ call ∈ b.calls, call.isActive = false))

instance (asked : Nat → Operation) (past : List (Deed Result)) :
    Decidable (Successive asked past) :=
  inferInstanceAs (Decidable (∀ d ∈ past, _ → _))

end

/-- A secondary connects, the primary does, and then the secondary twice again, at last as a worker
of another kind. -/
def comesBack : Nat → Operation
  | 1 => .registerPrimary 1
  | c => .registerSecondary c

/-- It takes over its member at first, and has a new one at the end. -/
def comesBack.script : List Cue :=
  nfvConnects ++
    ([.move .accept, .call, .move (.run 1), .move (.run 1), .move (.run 1),
      .move .accept, .call, .move (.run 2), .move (.signal 2 (.bytes nfvAnswer)),
      .move (.hear 2), .move (.run 2), .move (.run 2), .move (.run 2), .move (.serve 0),
      .move (.run 2),
      .move .accept, .call, .move (.run 3), .move (.signal 3 (.bytes "[\"vf\",1]".toUTF8.toList)),
      .move (.hear 3), .move (.run 3), .move (.run 3), .move (.run 3), .move (.run 3),
      .move (.serve 0), .move (.run 3)] : List Cue)

theorem Broker.last_registration_wins_for_another_kind :
    ∃ past b, Run (fun _ => Operation.Starts comesBack) (fresh 5) past b ∧
      registrations comesBack past = [⟨.nfv, 1, 0⟩, ⟨.primary, 0, 1⟩, ⟨.nfv, 1, 2⟩, ⟨.vf, 1, 3⟩] ∧
      (∃ r, Table.find? 1 b.registry = some r ∧ r.kind = .vf) ∧ b.standing.IsClosed 0 ∧
      b.standing.IsClosed 2 ∧ (b.member 0).retired ∧ Table.find? 2 b.registry = none := by
  obtain ⟨past, b, hr, hs, hidle, hpast, d, hd, hidle', hfound, hother⟩ :
      ∃ past b, Run (fun _ => Operation.Starts comesBack) (fresh 5) past b ∧
        Successive comesBack past ∧ b.IsIdle ∧
        registrations comesBack past =
          [⟨.nfv, 1, 0⟩, ⟨.primary, 0, 1⟩, ⟨.nfv, 1, 2⟩, ⟨.vf, 1, 3⟩] ∧
        ∃ d ∈ past[8]?, d.before.IsIdle ∧
          Table.find? 1 d.before.registry = some ⟨0, .nfv, 1⟩ ∧
          ∃ y ∈ registrations comesBack (d :: past.drop 9), y.id = 1 ∧ y.kind ≠ .nfv :=
    exists_run_of_play (fun _ _ => True) comesBack.script (fun _ _ _ h _ => h) (by decide +kernel)
  obtain ⟨hkeys, hlast, hearlier, hmembers, -⟩ := last_registration_wins hr hs hidle
  have hsplit : past = past.take 8 ++ d :: past.drop 9 := by
    obtain ⟨hlt, rfl⟩ := List.getElem?_eq_some_iff.1 hd
    rw [List.getElem_cons_drop, List.take_append_drop]
  refine ⟨past, b, hr, hpast, ?_, ?_, ?_, ?_, ?_⟩
  · obtain ⟨r, hreg, hk, -⟩ := hlast 1 ⟨.vf, 1, 3⟩ (by rw [hpast]; decide)
    exact ⟨r, hreg, hk⟩
  · exact hearlier [] ⟨.nfv, 1, 0⟩ [⟨.primary, 0, 1⟩, ⟨.nfv, 1, 2⟩, ⟨.vf, 1, 3⟩] hpast (by decide)
  · exact hearlier [⟨.nfv, 1, 0⟩, ⟨.primary, 0, 1⟩] ⟨.nfv, 1, 2⟩ [⟨.vf, 1, 3⟩] hpast (by decide)
  · obtain ⟨-, hretired, -⟩ := (hmembers _ d _ 1 _ hsplit hidle' hfound).2 hother
    exact hretired
  · rw [← Option.not_isSome_iff_eq_none, hkeys, hpast]
    decide

end WorkerBroker
