import WorkerBroker.Broker.Move
/-!
# The standing of members

Most of what happens in the broker leaves most of it alone. The state has four parts that change
for reasons of their own: who is registered, what each member is at and which connections have been
closed (`Broker.standing`), the queues (`Broker.queue`), what is read and written, and how far each
call is (`Broker.phase?`). The lemmas here say what each operation does to the first, the second
and the last part, so that no later proof opens an operation for that.
-/

namespace WorkerBroker

/-- A member with nobody waiting for it. -/
def Member.alone (m : Member) : Member := { m with queue := [] }

/-! ## The part of the state that outlasts a call -/

/-- Who is registered, what each member is at, and which connections have been closed. -/
structure Standing where
  registry : Table UInt32 Ref
  /-- the members, their queues left out -/
  members : List Member
  /-- of each connection, whether the broker has closed it -/
  closed : List Bool

namespace Standing

/-- The member of that number. -/
def member (n : Nat) (s : Standing) : Member := s.members[n]?.getD .nobody

/-- Change a member. -/
def change (n : Nat) (f : Member → Member) (s : Standing) : Standing :=
  { s with members := s.members.modify n f }

/-- Register a new member. -/
def enrol (kind : WorkerKind) (id : UInt32) (link : Nat) (s : Standing) : Standing :=
  { s with
    registry := Table.put id ⟨s.members.length, kind, id⟩ s.registry
    members := s.members ++ [.fresh kind id link] }

/-- Take an id out of the registry. -/
def unregister (id : UInt32) (s : Standing) : Standing :=
  { s with registry := Table.remove id s.registry }

/-- Close a connection. -/
def hangUp (l : Nat) (s : Standing) : Standing :=
  { s with closed := s.closed.set l true }

/-- A worker connects. -/
def accept (s : Standing) : Standing :=
  { s with closed := s.closed ++ [false] }

/-- Whether the broker has closed a connection. -/
def IsClosed (s : Standing) (l : Nat) : Prop := s.closed[l]? = some true

/-- Whether there is a connection and the broker has not closed it. -/
def IsOpen (s : Standing) (l : Nat) : Prop := s.closed[l]? = some false

/-- Take the connection from a member and close it. -/
def disconnect (n : Nat) (s : Standing) : Standing :=
  match (s.member n).channel with
  | none => s
  | some ch => (s.hangUp ch.link).change n fun m => { m with channel := none }

/-- Whether a handle is that of a member that was made. -/
def Genuine (s : Standing) (r : Ref) : Prop :=
  r.number < s.members.length ∧ (s.member r.number).kind = r.kind ∧ (s.member r.number).id = r.id

/-- Whether a member is the one registered under its id. -/
def Registers (s : Standing) (r : Ref) : Prop :=
  Table.find? r.id s.registry = some r

instance (s : Standing) (r : Ref) : Decidable (s.Registers r) :=
  inferInstanceAs (Decidable (_ = _))

@[simp] theorem registry_change (n : Nat) (f : Member → Member) (s : Standing) :
    (s.change n f).registry = s.registry := rfl

@[simp] theorem length_change (n : Nat) (f : Member → Member) (s : Standing) :
    (s.change n f).members.length = s.members.length := by simp [change]

theorem member_change_self {n : Nat} {f : Member → Member} {s : Standing}
    (h : n < s.members.length) : (s.change n f).member n = f (s.member n) := by
  simp [change, member, h]

theorem member_change_ne {n k : Nat} (f : Member → Member) (s : Standing) (h : k ≠ n) :
    (s.change n f).member k = s.member k := by
  simp [change, member, Ne.symm h]

/-- A member of a number that nobody has stands for nobody. -/
theorem member_of_length_le {n : Nat} {s : Standing} (h : s.members.length ≤ n) :
    s.member n = .nobody := by
  simp [member, List.getElem?_eq_none h]

theorem member_change_of_length_le {n : Nat} (f : Member → Member) {s : Standing}
    (h : s.members.length ≤ n) (k : Nat) : (s.change n f).member k = s.member k := by
  by_cases hk : k = n
  · subst hk
    rw [member_of_length_le (by simpa using h), member_of_length_le h]
  · exact member_change_ne f s hk

@[simp] theorem member_unregister (id : UInt32) (s : Standing) (n : Nat) :
    (s.unregister id).member n = s.member n := rfl

@[simp] theorem length_enrol (kind : WorkerKind) (id : UInt32) (link : Nat) (s : Standing) :
    (s.enrol kind id link).members.length = s.members.length + 1 := by simp [enrol]

theorem member_enrol_new (kind : WorkerKind) (id : UInt32) (link : Nat) (s : Standing) :
    (s.enrol kind id link).member s.members.length = .fresh kind id link := by
  simp [enrol, member]

theorem member_enrol_old (kind : WorkerKind) (id : UInt32) (link : Nat) {s : Standing} {n : Nat}
    (h : n < s.members.length) : (s.enrol kind id link).member n = s.member n := by
  simp [enrol, member, List.getElem?_append_left h]

@[simp] theorem registry_disconnect (n : Nat) (s : Standing) :
    (s.disconnect n).registry = s.registry := by
  unfold disconnect
  split <;> rfl

@[simp] theorem length_disconnect (n : Nat) (s : Standing) :
    (s.disconnect n).members.length = s.members.length := by
  unfold disconnect
  split
  · rfl
  · exact length_change ..

theorem member_disconnect_self (n : Nat) (s : Standing) :
    (s.disconnect n).member n = { s.member n with channel := none } := by
  unfold disconnect
  split
  · rename_i h
    rw [← h]
  · rename_i ch h
    by_cases hn : n < s.members.length
    · exact member_change_self hn
    · rw [member_of_length_le (by omega)] at h
      cases h

theorem member_disconnect_ne (s : Standing) {n k : Nat} (h : k ≠ n) :
    (s.disconnect n).member k = s.member k := by
  unfold disconnect
  split
  · rfl
  · exact member_change_ne _ _ h

/-- A member without a connection has nothing to lose. -/
theorem disconnect_of_none {n : Nat} {s : Standing} (h : (s.member n).channel = none) :
    s.disconnect n = s := by
  simp only [disconnect, h]

/-- The connection that a member had is closed. -/
theorem closed_disconnect {n : Nat} {s : Standing} {ch : Channel}
    (h : (s.member n).channel = some ch) :
    (s.disconnect n).closed = s.closed.set ch.link true := by
  simp only [disconnect, h]
  rfl

/-! ### Handles stay genuine -/

theorem Genuine.change {s : Standing} {r : Ref} (h : s.Genuine r) (n : Nat) {f : Member → Member}
    (hf : ∀ m, (f m).kind = m.kind ∧ (f m).id = m.id) : (s.change n f).Genuine r := by
  obtain ⟨hl, hk, hi⟩ := h
  refine ⟨by simpa using hl, ?_⟩
  by_cases hn : r.number = n
  · subst hn
    rw [member_change_self hl, (hf _).1, (hf _).2]
    exact ⟨hk, hi⟩
  · rw [member_change_ne f s hn]
    exact ⟨hk, hi⟩

theorem Genuine.disconnect {s : Standing} {r : Ref} (h : s.Genuine r) (n : Nat) :
    (s.disconnect n).Genuine r := by
  unfold Standing.disconnect
  split
  · exact h
  · exact h.change (s := s.hangUp _) n fun _ => ⟨rfl, rfl⟩

theorem Genuine.unregister {s : Standing} {r : Ref} (h : s.Genuine r) (id : UInt32) :
    (s.unregister id).Genuine r := h

theorem Genuine.enrol {s : Standing} {r : Ref} (h : s.Genuine r) (kind : WorkerKind)
    (id : UInt32) (link : Nat) : (s.enrol kind id link).Genuine r := by
  obtain ⟨hl, hk, hi⟩ := h
  refine ⟨by rw [length_enrol]; omega, ?_⟩
  rw [member_enrol_old kind id link hl]
  exact ⟨hk, hi⟩

/-- A number, a kind and an id make a handle. -/
theorem Genuine.ext {s : Standing} {r r' : Ref} (h : s.Genuine r) (h' : s.Genuine r')
    (hn : r.number = r'.number) : r = r' := by
  obtain ⟨n, k, i⟩ := r
  obtain ⟨n', k', i'⟩ := r'
  obtain rfl : n = n' := hn
  obtain ⟨-, hk, hi⟩ := h
  obtain ⟨-, hk', hi'⟩ := h'
  have hkind : k = k' := hk.symm.trans hk'
  have hid : i = i' := hi.symm.trans hi'
  rw [hkind, hid]

end Standing

/-! ## What the operations do -/

/-- Reading a connection does not close it. -/
theorem Link.closed_of_receive? {l rest : Link} {o : Outcome} (h : l.receive? = some (o, rest)) :
    rest.closed = l.closed := by
  simp only [receive?] at h
  split at h <;> cases h <;> rfl

/-- Nothing that a worker does closes the broker's end. -/
theorem Link.closed_arrive (s : Signal) (l : Link) : (l.arrive s).closed = l.closed := by
  unfold arrive
  split
  · rfl
  · cases s <;> rfl

namespace Broker

variable {ω : Type}

/-- The part of the state that outlasts a call. -/
def standing (b : Broker ω) : Standing :=
  ⟨b.registry, b.members.map Member.alone, b.links.map Link.closed⟩

/-- Who waits for a member. -/
def queue (n : Nat) (b : Broker ω) : List Ticket := (b.member n).queue

theorem member_standing (b : Broker ω) (n : Nat) : b.standing.member n = (b.member n).alone := by
  simp only [standing, Standing.member, member, List.getElem?_map]
  rcases b.members[n]? with _ | m <;> rfl

@[simp] theorem registry_standing (b : Broker ω) : b.standing.registry = b.registry := rfl

@[simp] theorem length_standing (b : Broker ω) :
    b.standing.members.length = b.members.length := by simp [standing]

@[simp] theorem channel_standing (b : Broker ω) (n : Nat) :
    (b.standing.member n).channel = (b.member n).channel := by rw [member_standing]; rfl

@[simp] theorem generation_standing (b : Broker ω) (n : Nat) :
    (b.standing.member n).generation = (b.member n).generation := by rw [member_standing]; rfl

@[simp] theorem retired_standing (b : Broker ω) (n : Nat) :
    (b.standing.member n).retired = (b.member n).retired := by rw [member_standing]; rfl

/-! ### Members -/

theorem member_changeMember (b : Broker ω) (n k : Nat) (f : Member → Member) :
    (b.changeMember n f).member k =
      if k = n ∧ n < b.members.length then f (b.member n) else b.member k := by
  by_cases hk : k = n
  · subst hk
    by_cases hn : k < b.members.length
    · simp [changeMember, member, hn]
    · simp [changeMember, member, hn]
  · simp [changeMember, member, hk, Ne.symm hk]

/-- A change that does not look at the queue changes the standing alone. -/
theorem standing_changeMember (b : Broker ω) (n : Nat) {f : Member → Member}
    (hf : ∀ m, (f m).alone = f m.alone) :
    (b.changeMember n f).standing = b.standing.change n f := by
  simp only [standing, changeMember, Standing.change, Standing.mk.injEq, true_and, and_true]
  apply List.ext_getElem?
  intro k
  by_cases hk : n = k
  · subst hk
    rcases h : b.members[n]? with _ | m <;> simp [h, hf]
  · simp [hk]

/-- A change to the queue alone leaves the standing as it is. -/
theorem standing_changeMember_of_alone (b : Broker ω) (n : Nat) {f : Member → Member}
    (hf : ∀ m, (f m).alone = m.alone) : (b.changeMember n f).standing = b.standing := by
  simp only [standing, changeMember, Standing.mk.injEq, true_and, and_true]
  apply List.ext_getElem?
  intro k
  by_cases hk : n = k
  · subst hk
    rcases h : b.members[n]? with _ | m <;> simp [h, hf]
  · simp [hk]

theorem queue_changeMember (b : Broker ω) (n k : Nat) {f : Member → Member}
    (hf : ∀ m, (f m).queue = m.queue) : (b.changeMember n f).queue k = b.queue k := by
  simp only [queue, member_changeMember]
  split
  · rename_i h
    rw [hf, h.1]
  · rfl

@[simp] theorem standing_queueUp (b : Broker ω) (n : Nat) (t : Ticket) :
    (b.queueUp n t).standing = b.standing :=
  b.standing_changeMember_of_alone n fun _ => rfl

@[simp] theorem standing_serveNext (b : Broker ω) (n : Nat) :
    (b.serveNext n).standing = b.standing :=
  b.standing_changeMember_of_alone n fun _ => rfl

theorem queue_queueUp (b : Broker ω) (n k : Nat) (t : Ticket) :
    (b.queueUp n t).queue k =
      if k = n ∧ n < b.members.length then b.queue n ++ [t] else b.queue k := by
  simp only [queueUp, queue, member_changeMember]
  split <;> rfl

theorem queue_serveNext (b : Broker ω) (n k : Nat) :
    (b.serveNext n).queue k = if k = n then (b.queue n).tail else b.queue k := by
  simp only [serveNext, queue, member_changeMember]
  by_cases hk : k = n
  · by_cases hn : n < b.members.length
    · simp [hk, hn]
    · simp [hk, hn, member, Member.nobody]
  · simp [hk]

/-! ### Calls -/

theorem calls_setPhase (b : Broker ω) (c k : Nat) (p : Phase ω) :
    (b.setPhase c p).calls[k]? =
      if k = c then b.calls[c]?.map fun call => { call with phase := p } else b.calls[k]? := by
  by_cases hk : k = c
  · simp [setPhase, hk]
  · simp [setPhase, hk, Ne.symm hk]

theorem calls_meet (b : Broker ω) (c k : Nat) (refs : List Ref) :
    (b.meet c refs).calls[k]? =
      if k = c then b.calls[c]?.map fun call => { call with refs := refs ++ call.refs }
      else b.calls[k]? := by
  by_cases hk : k = c
  · simp [meet, hk]
  · simp [meet, hk, Ne.symm hk]

theorem phase?_setPhase (b : Broker ω) (c k : Nat) (p : Phase ω) :
    (b.setPhase c p).phase? k = if k = c then (b.phase? c).map fun _ => p else b.phase? k := by
  simp only [phase?, calls_setPhase]
  split
  · rcases b.calls[c]? with _ | call <;> rfl
  · rfl

theorem phase?_setPhase_self {b : Broker ω} {c : Nat} {p q : Phase ω} (h : b.phase? c = some q) :
    (b.setPhase c p).phase? c = some p := by
  simp [phase?_setPhase, h]

theorem phase?_setPhase_ne (b : Broker ω) {c k : Nat} (p : Phase ω) (h : k ≠ c) :
    (b.setPhase c p).phase? k = b.phase? k := by
  simp [phase?_setPhase, h]

@[simp] theorem phase?_meet (b : Broker ω) (c k : Nat) (refs : List Ref) :
    (b.meet c refs).phase? k = b.phase? k := by
  simp only [phase?, calls_meet]
  split
  · rename_i hk
    rw [hk]
    rcases b.calls[c]? with _ | call <;> rfl
  · rfl

@[simp] theorem phase?_changeMember (b : Broker ω) (n : Nat) (f : Member → Member) (k : Nat) :
    (b.changeMember n f).phase? k = b.phase? k := rfl

@[simp] theorem phase?_changeLink (b : Broker ω) (l : Nat) (f : Link → Link) (k : Nat) :
    (b.changeLink l f).phase? k = b.phase? k := rfl

@[simp] theorem standing_setPhase (b : Broker ω) (c : Nat) (p : Phase ω) :
    (b.setPhase c p).standing = b.standing := rfl

@[simp] theorem standing_meet (b : Broker ω) (c : Nat) (refs : List Ref) :
    (b.meet c refs).standing = b.standing := rfl

/-- Who leaves all queues leaves the members as they are. -/
theorem standing_withdraw (b : Broker ω) (c : Nat) : (b.withdraw c).standing = b.standing := by
  simp only [standing, withdraw, List.map_map]
  rfl

theorem standing_accept (b : Broker ω) :
    standing { b with links := b.links ++ [.fresh] } = b.standing.accept := by
  simp only [standing, Standing.accept, List.map_append]
  rfl

/-- What is read and written on a connection does not close it. -/
theorem standing_changeLink (b : Broker ω) (l : Nat) {f : Link → Link}
    (hf : (f (b.link l)).closed = (b.link l).closed) :
    (b.changeLink l f).standing = b.standing := by
  simp only [standing, changeLink, Standing.mk.injEq, true_and]
  apply List.ext_getElem?
  intro k
  by_cases hk : l = k
  · subst hk
    rcases h : b.links[l]? with _ | link
    · simp [h]
    · simpa [h, Broker.link] using hf
  · simp [hk]

@[simp] theorem standing_hangUp (b : Broker ω) (l : Nat) :
    (b.hangUp l).standing = b.standing.hangUp l := by
  simp only [standing, hangUp, changeLink, Standing.hangUp, Standing.mk.injEq, true_and]
  apply List.ext_getElem?
  intro k
  by_cases hk : l = k
  · subst hk
    by_cases h : l < b.links.length
    · simp [h, Link.hangUp]
    · simp [h]
  · simp [hk]

@[simp] theorem queue_setPhase (b : Broker ω) (c : Nat) (p : Phase ω) (n : Nat) :
    (b.setPhase c p).queue n = b.queue n := rfl

@[simp] theorem queue_meet (b : Broker ω) (c : Nat) (refs : List Ref) (n : Nat) :
    (b.meet c refs).queue n = b.queue n := rfl

@[simp] theorem queue_changeLink (b : Broker ω) (l : Nat) (f : Link → Link) (n : Nat) :
    (b.changeLink l f).queue n = b.queue n := rfl

/-! ### Connections of members -/

@[simp] theorem phase?_disconnect (b : Broker ω) (n k : Nat) :
    (b.disconnect n).phase? k = b.phase? k := by
  unfold disconnect
  split <;> rfl

@[simp] theorem calls_disconnect (b : Broker ω) (n : Nat) :
    (b.disconnect n).calls = b.calls := by
  unfold disconnect
  split <;> rfl

@[simp] theorem queue_disconnect (b : Broker ω) (n k : Nat) :
    (b.disconnect n).queue k = b.queue k := by
  unfold disconnect
  split
  · rfl
  · exact queue_changeMember _ n k fun _ => rfl

theorem standing_disconnect (b : Broker ω) (n : Nat) :
    (b.disconnect n).standing = b.standing.disconnect n := by
  simp only [disconnect, Standing.disconnect, channel_standing]
  rcases (b.member n).channel with _ | ch
  · rfl
  · change ((b.hangUp ch.link).changeMember n _).standing = _
    rw [standing_changeMember _ _ (by intro; rfl), standing_hangUp]

/-! ### Acts and turns -/

@[simp] theorem calls_act (b : Broker ω) (a : Act) : (b.act a).2.calls = b.calls := by
  cases a with
  | strike r =>
    simp only [act]
    split <;> rfl
  | dismiss kind id =>
    simp only [act]
    split
    · split <;> rfl
    · rfl
  | _ => rfl

@[simp] theorem phase?_act (b : Broker ω) (a : Act) (k : Nat) :
    (b.act a).2.phase? k = b.phase? k := by
  simp [phase?]

@[simp] theorem queue_act (b : Broker ω) (a : Act) (n : Nat) :
    (b.act a).2.queue n = b.queue n := by
  cases a with
  | enrol kind id link =>
    simp only [act, queue, member]
    rcases Nat.lt_trichotomy n b.members.length with h | h | h
    · rw [List.getElem?_append_left h]
    · simp [h, Member.fresh, Member.nobody]
    · rw [List.getElem?_eq_none (by simp; omega), List.getElem?_eq_none (by omega)]
  | strike r =>
    simp only [act]
    split <;> rfl
  | dismiss kind id =>
    simp only [act]
    split
    · split <;> rfl
    · rfl
  | advance r => exact b.queue_changeMember _ n fun _ => rfl
  | _ => rfl

theorem standing_enrol (b : Broker ω) (kind : WorkerKind) (id : UInt32) (link : Nat) :
    (b.act (.enrol kind id link)).2.standing = b.standing.enrol kind id link := by
  simp [act, standing, Standing.enrol, Member.alone, Member.fresh]

theorem standing_strike (b : Broker ω) (r : Ref) :
    (b.act (.strike r)).2.standing =
      if b.standing.Registers r then b.standing.unregister r.id else b.standing := by
  by_cases h : b.standing.Registers r
  · have hf : Table.find? r.id b.registry = some r := h
    rw [if_pos h]
    simp only [act, if_pos hf]
    rfl
  · have hf : ¬Table.find? r.id b.registry = some r := h
    rw [if_neg h]
    simp only [act, if_neg hf]

theorem standing_dismiss (b : Broker ω) (kind : WorkerKind) (id : UInt32) :
    (b.act (.dismiss kind id)).2.standing = b.standing ∨
      (b.act (.dismiss kind id)).2.standing = b.standing.unregister id := by
  simp only [act]
  split
  · split
    · exact .inr rfl
    · exact .inl rfl
  · exact .inl rfl

theorem standing_advance (b : Broker ω) (r : Ref) :
    (b.act (.advance r)).2.standing =
      b.standing.change r.number fun m => { m with generation := m.generation + 1 } :=
  b.standing_changeMember _ fun _ => rfl

/-- An act that does not advance the generation of a member leaves it as it is, or has just made
it. -/
theorem member_act (b : Broker ω) {a : Act} {n : Nat}
    (ha : ∀ r, a = .advance r → r.number ≠ n) :
    (b.act a).2.standing.member n = b.standing.member n ∨
      ∃ kind id l, n = b.standing.members.length ∧
        (b.act a).2.standing.member n = .fresh kind id l := by
  cases a with
  | enrol kind id l =>
    rw [standing_enrol]
    rcases Nat.lt_trichotomy n b.standing.members.length with hlt | rfl | hgt
    · exact .inl (Standing.member_enrol_old _ _ _ hlt)
    · exact .inr ⟨kind, id, l, rfl, Standing.member_enrol_new _ _ _ _⟩
    · refine .inl ?_
      rw [Standing.member_of_length_le (by rw [Standing.length_enrol]; omega),
        Standing.member_of_length_le (by omega)]
  | strike r =>
    rw [standing_strike]
    split <;> exact .inl rfl
  | dismiss kind id =>
    rcases b.standing_dismiss kind id with e | e <;> rw [e] <;> exact .inl rfl
  | advance r =>
    rw [standing_advance, Standing.member_change_ne _ _ (Ne.symm (ha r rfl))]
    exact .inl rfl
  | discard l =>
    change (b.hangUp l).standing.member n = _ ∨ _
    rw [standing_hangUp]
    exact .inl rfl
  | find _ | roster | reinstate _ => exact .inl rfl

/-- A member that there is stays as it is, but for one whose generation is advanced. -/
theorem member_act_old {b : Broker ω} {n : Nat} (a : Act) (hn : n < b.standing.members.length)
    (ha : ∀ r, a = .advance r → r.number ≠ n) :
    (b.act a).2.standing.member n = b.standing.member n :=
  (b.member_act ha).resolve_right fun ⟨_, _, _, hlast, _⟩ => Nat.ne_of_lt hn hlast

@[simp] theorem calls_take (b : Broker ω) (n : Nat) (t : Turn) :
    (b.take n t).2.calls = b.calls := by
  cases t with
  | offer g l =>
    simp only [take]
    split
    · rfl
    · split
      · rfl
      · exact b.calls_disconnect n
  | shut => exact b.calls_disconnect n
  | retire =>
    simp only [take]
    split <;> rfl
  | look => rfl

@[simp] theorem phase?_take (b : Broker ω) (n : Nat) (t : Turn) (k : Nat) :
    (b.take n t).2.phase? k = b.phase? k := by
  simp [phase?]

@[simp] theorem registry_take (b : Broker ω) (n : Nat) (t : Turn) :
    (b.take n t).2.registry = b.registry := by
  have hcut : (b.disconnect n).registry = b.registry := by
    rw [← registry_standing, standing_disconnect, Standing.registry_disconnect, registry_standing]
  cases t with
  | offer g l =>
    simp only [take]
    split
    · rfl
    · split
      · rfl
      · exact hcut
  | shut => exact hcut
  | retire =>
    simp only [take]
    split <;> rfl
  | look => rfl

@[simp] theorem queue_take (b : Broker ω) (n : Nat) (t : Turn) (k : Nat) :
    (b.take n t).2.queue k = b.queue k := by
  cases t with
  | offer g l =>
    simp only [take]
    split
    · rfl
    · split
      · rfl
      · change ((b.disconnect n).changeMember n _).queue k = _
        rw [queue_changeMember _ _ _ (by intro; rfl), queue_disconnect]
  | shut =>
    change ((b.disconnect n).changeMember n _).queue k = _
    rw [queue_changeMember _ _ _ (by intro; rfl), queue_disconnect]
  | retire =>
    simp only [take]
    split
    · rfl
    · exact b.queue_changeMember n k fun _ => rfl
  | look => rfl

theorem take_offer_taken {b : Broker ω} {n g l : Nat}
    (h : (b.take n (.offer g l)).1 = Offered.taken) :
    (b.member n).retired = false ∧ (b.member n).generation = g ∧
      (b.take n (.offer g l)).2.standing =
        (b.standing.disconnect n).change n fun m => { m with channel := some ⟨l, g⟩ } := by
  simp only [take] at h ⊢
  split at h
  · cases h
  · split at h
    · cases h
    · rename_i hr hg
      refine ⟨by simpa using hr, by simpa using hg, ?_⟩
      rw [if_neg hr, if_neg hg]
      change ((b.disconnect n).changeMember n _).standing = _
      rw [standing_changeMember _ _ (by intro; rfl), standing_disconnect]

theorem take_offer_superseded {b : Broker ω} {n g l : Nat}
    (h : (b.take n (.offer g l)).1 = Offered.superseded) :
    (b.member n).retired = false ∧ (b.member n).generation ≠ g ∧
      (b.take n (.offer g l)).2 = b.hangUp l := by
  simp only [take] at h ⊢
  split at h
  · cases h
  · split at h
    · rename_i hr hg
      refine ⟨by simpa using hr, hg, ?_⟩
      rw [if_neg hr, if_pos hg]
    · cases h

theorem take_offer_handedBack {b : Broker ω} {n g l : Nat}
    (h : (b.take n (.offer g l)).1 = Offered.handedBack) :
    (b.member n).retired ∧ (b.take n (.offer g l)).2 = b := by
  simp only [take] at h ⊢
  split at h
  · rename_i hr
    refine ⟨hr, ?_⟩
    rw [if_pos hr]
  · split at h <;> cases h

theorem standing_shut (b : Broker ω) (n : Nat) :
    (b.take n .shut).2.standing =
      (b.standing.disconnect n).change n fun m => { m with retired := true } := by
  change ((b.disconnect n).changeMember n _).standing = _
  rw [standing_changeMember _ _ (by intro; rfl), standing_disconnect]

theorem take_retire_true {b : Broker ω} {n : Nat} (h : (b.take n .retire).1 = true) :
    (b.member n).channel = none ∧
      (b.take n .retire).2.standing = b.standing.change n fun m => { m with retired := true } := by
  simp only [take] at h ⊢
  split at h
  · cases h
  · rename_i hc
    refine ⟨by simpa using hc, ?_⟩
    rw [if_neg hc]
    exact b.standing_changeMember n fun _ => rfl

theorem take_retire_false {b : Broker ω} {n : Nat} (h : (b.take n .retire).1 = false) :
    (b.member n).channel.isSome ∧ (b.take n .retire).2 = b := by
  simp only [take] at h ⊢
  split at h
  · rename_i hc
    refine ⟨hc, ?_⟩
    rw [if_pos hc]
  · cases h

/-! ### Handles stay genuine -/

theorem genuine_act {b : Broker ω} {r : Ref} (h : b.standing.Genuine r) (a : Act) :
    (b.act a).2.standing.Genuine r := by
  cases a with
  | enrol kind id link =>
    rw [standing_enrol]
    exact h.enrol kind id link
  | strike r' =>
    rw [standing_strike]
    split
    · exact h.unregister _
    · exact h
  | dismiss kind id =>
    rcases b.standing_dismiss kind id with e | e <;> rw [e]
    · exact h
    · exact h.unregister id
  | advance r' =>
    rw [standing_advance]
    exact h.change _ fun _ => ⟨rfl, rfl⟩
  | _ => exact h

theorem genuine_take {b : Broker ω} {r : Ref} (h : b.standing.Genuine r) (n : Nat) (t : Turn) :
    (b.take n t).2.standing.Genuine r := by
  cases t with
  | offer g l =>
    rcases ha : (b.take n (.offer g l)).1 with _ | _ | _
    · rw [(take_offer_taken ha).2.2]
      exact (h.disconnect n).change n fun _ => ⟨rfl, rfl⟩
    · rw [(take_offer_superseded ha).2.2, standing_hangUp]
      exact h
    · rw [(take_offer_handedBack ha).2]
      exact h
  | shut =>
    rw [standing_shut]
    exact (h.disconnect n).change n fun _ => ⟨rfl, rfl⟩
  | retire =>
    rcases ha : (b.take n .retire).1 with _ | _
    · rw [(take_retire_false ha).2]
      exact h
    · rw [(take_retire_true ha).2]
      exact h.change n fun _ => ⟨rfl, rfl⟩
  | look => exact h

theorem genuine_disconnect {b : Broker ω} {r : Ref} (h : b.standing.Genuine r) (n : Nat) :
    (b.disconnect n).standing.Genuine r := by
  rw [standing_disconnect]
  exact h.disconnect n

end Broker

end WorkerBroker
