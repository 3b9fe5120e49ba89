import Mathlib.Logic.Function.Basic
import WorkerBroker.Proofs.Conduct
import WorkerBroker.Proofs.Standing
/-!
# What is true of members and of connections

The registry and the members agree in some ways at any time, however calls proceed
(`Standing.Sound`): a member is registered under its own id if at all, what is retired has no
connection, and a burden tells the truth about the member that it is about (`Burden.IsTrue`). A
connection is in one place at a time, with a member or in the hands of a call, and whatever is
somewhere is open (`Standing.Held`).

Each of these is kept by each of the changes that `Standing` knows. Which changes there are in a run
is a matter of `Proofs.Calls`.
-/

namespace WorkerBroker

open Function (update)

/-- What a burden says about the member it is about, and about the worker behind a connection. -/
def Burden.IsTrue (s : Standing) : Burden → Prop
  | .carries _ (some p) => p.1 = .primary ↔ p.2 = primaryId
  | .found r _ p => s.Genuine r ∧ r.id = p.2 ∧ (p.1 = .primary ↔ p.2 = primaryId)
  | .announced r _ _ | .closing r => s.Genuine r
  | .displaced r => s.Genuine r ∧ ¬s.Registers r
  | .retired r | .closed r _ => s.Genuine r ∧ (s.member r.number).retired
  | .nothing | .carries _ none | .spoilt _ => True

namespace Standing

/-- The registry holds members under their own ids, the primary under its own. What is retired has
no connection, and the burdens tell the truth. -/
structure Sound (s : Standing) (β : Nat → Burden) : Prop where
  ascending : Table.Ascending s.registry
  keyed : ∀ k r, Table.find? k s.registry = some r → r.id = k ∧ s.Genuine r
  primary : ∀ n, n < s.members.length →
    ((s.member n).kind = .primary ↔ (s.member n).id = primaryId)
  vacant : ∀ n, (s.member n).retired → (s.member n).channel = none
  burdens : ∀ c, (β c).IsTrue s

/-- Each connection that a member has, or a call has in hand, is open, and nobody else has it. -/
structure Held (s : Standing) (β : Nat → Burden) : Prop where
  channel : ∀ n ch, (s.member n).channel = some ch → s.IsOpen ch.link
  hand : ∀ c l, (β c).link? = some l → s.IsOpen l
  apart : ∀ n ch c, (s.member n).channel = some ch → (β c).link? ≠ some ch.link
  member : ∀ n k ch ch', (s.member n).channel = some ch → (s.member k).channel = some ch' →
    ch.link = ch'.link → n = k
  call : ∀ c d l, (β c).link? = some l → (β d).link? = some l → c = d

/-! ## Changes to members -/

/-- A change to a member that leaves it the member it is, and retired if it is. -/
structure Keeps (f : Member → Member) : Prop where
  kind : ∀ m, (f m).kind = m.kind
  id : ∀ m, (f m).id = m.id
  retired : ∀ m : Member, m.retired → (f m).retired

theorem Genuine.of_keeps {s : Standing} {r : Ref} (h : s.Genuine r) (n : Nat)
    {f : Member → Member} (hf : Keeps f) : (s.change n f).Genuine r :=
  h.change n fun m => ⟨hf.kind m, hf.id m⟩

theorem retired_change {s : Standing} {n k : Nat} {f : Member → Member} (hf : Keeps f)
    (h : (s.member k).retired) : ((s.change n f).member k).retired := by
  by_cases hn : n < s.members.length
  · by_cases hk : k = n
    · subst hk
      rw [member_change_self hn]
      exact hf.retired _ h
    · rwa [member_change_ne f s hk]
  · rwa [member_change_of_length_le f (by omega)]

theorem member_change {s : Standing} {n k : Nat} {f : Member → Member} :
    (s.change n f).member k =
      if k = n ∧ n < s.members.length then f (s.member n) else s.member k := by
  split
  · rename_i h
    rw [h.1, member_change_self h.2]
  · rename_i h
    by_cases hk : k = n
    · exact member_change_of_length_le f (by omega) k
    · exact member_change_ne f s hk

/-- A change to a member that is not about its connection. -/
theorem channel_change {f : Member → Member} (hf : ∀ m, (f m).channel = m.channel) (s : Standing)
    (n k : Nat) : ((s.change n f).member k).channel = (s.member k).channel := by
  rw [member_change]
  split
  · rename_i e
    rw [hf, e.1]
  · rfl

/-- A change to a member that does not retire it. -/
theorem retired_change_of_eq {f : Member → Member} (hf : ∀ m, (f m).retired = m.retired)
    (s : Standing) (n k : Nat) : ((s.change n f).member k).retired = (s.member k).retired := by
  rw [member_change]
  split
  · rename_i e
    rw [hf, e.1]
  · rfl

theorem retired_disconnect (s : Standing) (n k : Nat) :
    ((s.disconnect n).member k).retired = (s.member k).retired := by
  unfold Standing.disconnect
  split
  · rfl
  · exact retired_change_of_eq (by intro; rfl) (s.hangUp _) n k

/-- No member is made by a change to one. -/
theorem genuine_of_change {s : Standing} {n : Nat} {f : Member → Member} {r : Ref}
    (hf : ∀ m, (f m).kind = m.kind ∧ (f m).id = m.id) (h : (s.change n f).Genuine r) :
    s.Genuine r := by
  obtain ⟨hl, hk, hi⟩ := h
  rw [length_change] at hl
  rw [member_change] at hk hi
  split at hk
  · rename_i e
    rw [if_pos e, (hf _).2, ← e.1] at hi
    rw [(hf _).1, ← e.1] at hk
    exact ⟨hl, hk, hi⟩
  · rename_i e
    rw [if_neg e] at hi
    exact ⟨hl, hk, hi⟩

theorem genuine_of_disconnect {s : Standing} {n : Nat} {r : Ref} (h : (s.disconnect n).Genuine r) :
    s.Genuine r := by
  unfold Standing.disconnect at h
  split at h
  · exact h
  · exact genuine_of_change (by intro; exact ⟨rfl, rfl⟩) h

end Standing

/-! ## Burdens stay true -/

namespace Burden.IsTrue

variable {s : Standing} {β : Burden}

theorem change (h : β.IsTrue s) (n : Nat) {f : Member → Member} (hf : Standing.Keeps f) :
    β.IsTrue (s.change n f) := by
  cases β with
  | carries l who => cases who <;> exact h
  | found r l p => exact ⟨h.1.of_keeps n hf, h.2⟩
  | announced r g l => exact Standing.Genuine.of_keeps h n hf
  | closing r => exact Standing.Genuine.of_keeps h n hf
  | displaced r => exact ⟨h.1.of_keeps n hf, h.2⟩
  | retired r => exact ⟨h.1.of_keeps n hf, Standing.retired_change hf h.2⟩
  | closed r struck => exact ⟨h.1.of_keeps n hf, Standing.retired_change hf h.2⟩
  | nothing => trivial
  | spoilt l => trivial

theorem unregister (h : β.IsTrue s) (id : UInt32) : β.IsTrue (s.unregister id) := by
  cases β with
  | carries l who => cases who <;> exact h
  | displaced r =>
    refine ⟨h.1, fun hr => h.2 ?_⟩
    simp only [Standing.Registers, Standing.unregister, Table.find?_remove] at hr
    split at hr
    · cases hr
    · exact hr
  | _ => exact h

/-- A new member is none of those that burdens are about. -/
theorem enrol (h : β.IsTrue s) (kind : WorkerKind) (id : UInt32) (link : Nat) :
    β.IsTrue (s.enrol kind id link) := by
  cases β with
  | carries l who => cases who <;> exact h
  | found r l p => exact ⟨h.1.enrol kind id link, h.2⟩
  | announced r g l => exact Standing.Genuine.enrol h kind id link
  | closing r => exact Standing.Genuine.enrol h kind id link
  | displaced r =>
    refine ⟨h.1.enrol kind id link, fun hr => ?_⟩
    simp only [Standing.Registers, Standing.enrol, Table.find?_put] at hr
    split at hr
    · have hn : s.members.length = r.number := congrArg Ref.number (Option.some.inj hr)
      exact absurd h.1.1 (by omega)
    · exact h.2 hr
  | retired r =>
    refine ⟨h.1.enrol kind id link, ?_⟩
    rw [Standing.member_enrol_old kind id link h.1.1]
    exact h.2
  | closed r struck =>
    refine ⟨h.1.enrol kind id link, ?_⟩
    rw [Standing.member_enrol_old kind id link h.1.1]
    exact h.2
  | nothing => trivial
  | spoilt l => trivial

end Burden.IsTrue

/-! ## The registry and the members stay sound -/

namespace Standing.Sound

variable {s : Standing} {β : Nat → Burden}

/-- Nothing has happened. -/
theorem fresh {ω : Type} (timeout : Nat) :
    (Broker.fresh timeout : Broker ω).standing.Sound fun _ => .nothing where
  ascending := List.Pairwise.nil
  keyed := fun k r h => by cases h
  primary := fun n h => absurd h (Nat.not_lt_zero n)
  vacant := fun n _ => rfl
  burdens := fun _ => trivial

/-- Who is registered is a member, under its own id. -/
theorem keyed_of_mem (h : s.Sound β) {e : UInt32 × Ref} (he : e ∈ s.registry) :
    e.2.id = e.1 ∧ s.Genuine e.2 :=
  h.keyed e.1 e.2 (h.ascending.find?_eq_some he)

theorem primary_iff (h : s.Sound β) {r : Ref} (hr : s.Genuine r) :
    r.kind = .primary ↔ r.id = primaryId := by
  obtain ⟨hl, hk, hi⟩ := hr
  rw [← hk, ← hi]
  exact h.primary _ hl

/-- A member that is registered is registered under its own id. -/
theorem registers (h : s.Sound β) {k : UInt32} {r : Ref}
    (hf : Table.find? k s.registry = some r) : s.Registers r := by
  obtain ⟨rfl, -⟩ := h.keyed k r hf
  exact hf

theorem genuine (h : s.Sound β) {r : Ref} (hr : s.Registers r) : s.Genuine r :=
  (h.keyed r.id r hr).2

/-- The worker whose connection is in hand, if it is settled whom to place it with. -/
theorem isFor (h : s.Sound β) {c l : Nat} {p : Identity} (hβ : (β c).IsFor l p) :
    p.1 = .primary ↔ p.2 = primaryId := by
  have ht := h.burdens c
  rcases hβ with hβ | ⟨r, hβ⟩ <;> rw [hβ] at ht
  · exact ht
  · exact ht.2.2

/-- One call has another burden. -/
theorem burden (h : s.Sound β) {c : Nat} {β' : Burden} (hβ : β'.IsTrue s) :
    s.Sound (update β c β') where
  ascending := h.ascending
  keyed := h.keyed
  primary := h.primary
  vacant := h.vacant
  burdens k := by
    by_cases hk : k = c
    · rw [hk, Function.update_self]
      exact hβ
    · rw [Function.update_of_ne hk]
      exact h.burdens k

/-- A member changes and stays without a connection if it is retired. -/
theorem change (h : s.Sound β) (n : Nat) {f : Member → Member} (hf : Keeps f)
    (hv : (f (s.member n)).retired → (f (s.member n)).channel = none) :
    (s.change n f).Sound β where
  ascending := h.ascending
  keyed k r hr := ⟨(h.keyed k r hr).1, (h.keyed k r hr).2.of_keeps n hf⟩
  primary k hk := by
    rw [length_change] at hk
    rw [member_change]
    split
    · rename_i e
      rw [hf.kind, hf.id]
      exact h.primary n e.2
    · exact h.primary k hk
  vacant k := by
    rw [member_change]
    split
    · exact hv
    · exact h.vacant k
  burdens c := (h.burdens c).change n hf

/-- A connection is closed. -/
theorem hangUp (h : s.Sound β) (l : Nat) : (s.hangUp l).Sound β where
  ascending := h.ascending
  keyed := h.keyed
  primary := h.primary
  vacant := h.vacant
  burdens c := by
    have hc := h.burdens c
    cases hβ : β c with
    | carries l' who => rw [hβ] at hc; cases who <;> exact hc
    | _ => rw [hβ] at hc; exact hc

theorem accept (h : s.Sound β) : s.accept.Sound β where
  ascending := h.ascending
  keyed := h.keyed
  primary := h.primary
  vacant := h.vacant
  burdens c := by
    have hc := h.burdens c
    cases hβ : β c with
    | carries l' who => rw [hβ] at hc; cases who <;> exact hc
    | _ => rw [hβ] at hc; exact hc

theorem disconnect (h : s.Sound β) (n : Nat) : (s.disconnect n).Sound β := by
  unfold Standing.disconnect
  split
  · exact h
  · exact (h.hangUp _).change n ⟨fun _ => rfl, fun _ => rfl, fun _ => id⟩ fun _ => rfl

theorem unregister (h : s.Sound β) (id : UInt32) : (s.unregister id).Sound β where
  ascending := h.ascending.remove id
  keyed k r hr := by
    simp only [Standing.unregister, Table.find?_remove] at hr
    split at hr
    · cases hr
    · exact h.keyed k r hr
  primary := h.primary
  vacant := h.vacant
  burdens c := (h.burdens c).unregister id

theorem enrol (h : s.Sound β) {kind : WorkerKind} {id : UInt32} (link : Nat)
    (hp : kind = .primary ↔ id = primaryId) : (s.enrol kind id link).Sound β where
  ascending := h.ascending.put id _
  keyed k r hr := by
    simp only [Standing.enrol, Table.find?_put] at hr
    split at hr
    · rename_i hk
      cases hr
      refine ⟨hk.symm, by rw [length_enrol]; exact Nat.lt_succ_self _, ?_⟩
      rw [member_enrol_new]
      exact ⟨rfl, rfl⟩
    · exact ⟨(h.keyed k r hr).1, (h.keyed k r hr).2.enrol kind id link⟩
  primary n hn := by
    rw [length_enrol] at hn
    rcases Nat.lt_succ_iff_lt_or_eq.1 hn with hn | rfl
    · rw [member_enrol_old kind id link hn]
      exact h.primary n hn
    · rw [member_enrol_new]
      exact hp
  vacant n hn := by
    rcases Nat.lt_trichotomy n s.members.length with hlt | rfl | hgt
    · rw [member_enrol_old kind id link hlt] at hn ⊢
      exact h.vacant n hn
    · rw [member_enrol_new] at hn
      cases hn
    · rw [member_of_length_le (by rw [length_enrol]; omega)]
      rfl
  burdens c := (h.burdens c).enrol kind id link

end Standing.Sound

/-! ## Connections stay closed -/

namespace Standing

theorem isOpen_hangUp {s : Standing} {l k : Nat} (h : s.IsOpen k) (hne : k ≠ l) :
    (s.hangUp l).IsOpen k := by
  rw [IsOpen, Standing.hangUp, List.getElem?_set_ne (Ne.symm hne)]
  exact h

theorem isClosed_hangUp {s : Standing} {l : Nat} (h : s.IsOpen l) : (s.hangUp l).IsClosed l := by
  rw [IsClosed, Standing.hangUp, List.getElem?_set_self (List.getElem?_eq_some_iff.1 h).1]

theorem IsClosed.hangUp {s : Standing} {l : Nat} (h : s.IsClosed l) (k : Nat) :
    (s.hangUp k).IsClosed l := by
  rw [IsClosed, Standing.hangUp, List.getElem?_set]
  split
  · rename_i e
    rw [e, if_pos (List.getElem?_eq_some_iff.1 h).1]
  · exact h

theorem IsClosed.accept {s : Standing} {l : Nat} (h : s.IsClosed l) : s.accept.IsClosed l := by
  rw [IsClosed, Standing.accept, List.getElem?_append_left (List.getElem?_eq_some_iff.1 h).1]
  exact h

theorem IsClosed.disconnect {s : Standing} {l : Nat} (h : s.IsClosed l) (n : Nat) :
    (s.disconnect n).IsClosed l := by
  unfold Standing.disconnect
  split
  · exact h
  · exact h.hangUp _

end Standing

/-! ## Connections stay in one place -/

namespace Standing.Held

variable {s s' : Standing} {β : Nat → Burden} {c : Nat} {β' : Burden}

/-- The members keep their connections. -/
theorem congr (h : s.Held β) (hs : ∀ k, (s'.member k).channel = (s.member k).channel)
    (ho : ∀ l, s.IsOpen l → s'.IsOpen l) : s'.Held β where
  channel n ch hn := ho _ (h.channel n ch (hs n ▸ hn))
  hand k l hl := ho l (h.hand k l hl)
  apart n ch k hn := h.apart n ch k (hs n ▸ hn)
  member n k ch ch' hn hk := h.member n k ch ch' (hs n ▸ hn) (hs k ▸ hk)
  call := h.call

/-- The connections in hand after one call has another burden. -/
theorem link?_update {k l : Nat} (hβ : ∀ l, β'.link? = some l → (β c).link? = some l)
    (h : (update β c β' k).link? = some l) : (β k).link? = some l := by
  by_cases hk : k = c
  · subst hk
    rw [Function.update_self] at h
    exact hβ l h
  · rwa [Function.update_of_ne hk] at h

/-- One call has another burden and takes no connection in hand for it. -/
theorem burden (h : s.Held β) (hβ : ∀ l, β'.link? = some l → (β c).link? = some l) :
    s.Held (update β c β') where
  channel := h.channel
  hand k l hl := h.hand k l (link?_update hβ hl)
  apart n ch k hn hk := h.apart n ch k hn (link?_update hβ hk)
  member := h.member
  call k d l hk hd := h.call k d l (link?_update hβ hk) (link?_update hβ hd)

/-- One call has another burden, and nothing in hand. -/
theorem unburden (h : s.Held β) (hβ : β'.link? = none) : s.Held (update β c β') :=
  h.burden fun l hl => by
    rw [hβ] at hl
    cases hl

/-- Whatever is in hand after a call has put its connection away was so before, with another
call. -/
theorem ne_of_link?_update {k l : Nat} (hβ : β'.link? = none)
    (h : (update β c β' k).link? = some l) : k ≠ c ∧ (β k).link? = some l := by
  by_cases hk : k = c
  · subst hk
    rw [Function.update_self, hβ] at h
    cases h
  · exact ⟨hk, by rwa [Function.update_of_ne hk] at h⟩

/-- A call gives the connection in hand to a member that has none. -/
theorem give (n : Nat) (ch : Channel) (h : s.Held β) (hl : (β c).link? = some ch.link)
    (hβ : β'.link? = none) (hn : (s.member n).channel = none)
    (hs : ∀ k, (s'.member k).channel = if k = n then some ch else (s.member k).channel)
    (hc : s'.closed = s.closed) : s'.Held (update β c β') := by
  have hold : ∀ {k ch'}, (s'.member k).channel = some ch' →
      k = n ∧ ch' = ch ∨ k ≠ n ∧ (s.member k).channel = some ch' := by
    intro k ch' hk
    rw [hs] at hk
    split at hk
    · exact .inl ⟨‹_›, (Option.some.inj hk).symm⟩
    · exact .inr ⟨‹_›, hk⟩
  have ho : ∀ l, s.IsOpen l → s'.IsOpen l := fun l h => by rwa [IsOpen, hc]
  constructor
  · intro k ch' hk
    rcases hold hk with ⟨-, rfl⟩ | ⟨-, hk⟩
    · exact ho _ (h.hand c _ hl)
    · exact ho _ (h.channel k ch' hk)
  · intro k l hk
    exact ho l (h.hand k l (ne_of_link?_update hβ hk).2)
  · intro k ch' d hk hd
    obtain ⟨hne, hd⟩ := ne_of_link?_update hβ hd
    rcases hold hk with ⟨-, rfl⟩ | ⟨-, hk⟩
    · exact hne (h.call d c _ hd hl)
    · exact h.apart k ch' d hk hd
  · intro k j ch₁ ch₂ hk hj e
    rcases hold hk with ⟨rfl, rfl⟩ | ⟨-, hk⟩ <;> rcases hold hj with ⟨rfl, rfl⟩ | ⟨-, hj⟩
    · rfl
    · exact absurd (e ▸ hl) (h.apart j ch₂ c hj)
    · exact absurd (e ▸ hl) (h.apart k ch₁ c hk)
    · exact h.member k j ch₁ ch₂ hk hj e
  · intro k d l hk hd
    exact h.call k d l (ne_of_link?_update hβ hk).2 (ne_of_link?_update hβ hd).2

/-- A new member has the connection that was in hand. -/
theorem enrol {l : Nat} (h : s.Held β) (kind : WorkerKind) (id : UInt32)
    (hl : (β c).link? = some l) (hβ : β'.link? = none) :
    (s.enrol kind id l).Held (update β c β') := by
  refine h.give s.members.length ⟨l, 0⟩ hl hβ ?_ (fun k => ?_) rfl
  · rw [member_of_length_le (Nat.le_refl _)]
    rfl
  · rcases Nat.lt_trichotomy k s.members.length with hk | rfl | hk
    · rw [member_enrol_old _ _ _ hk, if_neg (Nat.ne_of_lt hk)]
    · rw [member_enrol_new, if_pos rfl]
      rfl
    · rw [member_of_length_le (by rw [length_enrol]; omega), member_of_length_le (by omega),
        if_neg (by omega)]

/-- A call closes the connection in hand. -/
theorem drop {l : Nat} (h : s.Held β) (hl : (β c).link? = some l) (hβ : β'.link? = none) :
    (s.hangUp l).Held (update β c β') where
  channel n ch hn :=
    isOpen_hangUp (h.channel n ch hn) fun e => h.apart n ch c hn (e ▸ hl)
  hand k l' hk := by
    obtain ⟨hne, hk⟩ := ne_of_link?_update hβ hk
    exact isOpen_hangUp (h.hand k l' hk) fun e => hne (h.call k c l (e ▸ hk) hl)
  apart n ch k hn hk := h.apart n ch k hn (ne_of_link?_update hβ hk).2
  member := h.member
  call k d l' hk hd := h.call k d l' (ne_of_link?_update hβ hk).2 (ne_of_link?_update hβ hd).2

/-- A member loses its connection. -/
theorem disconnect (h : s.Held β) (n : Nat) : (s.disconnect n).Held β := by
  rcases hn : (s.member n).channel with _ | ch
  · rw [disconnect_of_none hn]
    exact h
  have hold : ∀ {k ch'}, ((s.disconnect n).member k).channel = some ch' →
      k ≠ n ∧ (s.member k).channel = some ch' := by
    intro k ch' hk
    by_cases hkn : k = n
    · rw [hkn, member_disconnect_self] at hk
      cases hk
    · rw [member_disconnect_ne s hkn] at hk
      exact ⟨hkn, hk⟩
  have ho : ∀ {l}, s.IsOpen l → l ≠ ch.link → (s.disconnect n).IsOpen l := by
    intro l hl hne
    rw [IsOpen, closed_disconnect hn]
    exact isOpen_hangUp hl hne
  constructor
  · intro k ch' hk
    obtain ⟨hkn, hk⟩ := hold hk
    exact ho (h.channel k ch' hk) fun e => hkn (h.member k n ch' ch hk hn e)
  · intro k l hk
    exact ho (h.hand k l hk) fun e => h.apart n ch k hn (e ▸ hk)
  · exact fun k ch' d hk => h.apart k ch' d (hold hk).2
  · exact fun k j ch₁ ch₂ hk hj => h.member k j ch₁ ch₂ (hold hk).2 (hold hj).2
  · exact h.call

/-- A worker connects. -/
theorem accept (h : s.Held β) : s.accept.Held β :=
  h.congr (fun _ => rfl) fun l hl => by
    rw [IsOpen, Standing.accept, List.getElem?_append_left (List.getElem?_eq_some_iff.1 hl).1]
    exact hl

/-- A call takes a connection in hand that is open and that nobody has. -/
theorem take (h : s.Held β) (hl : ∀ l, β'.link? = some l → s.IsOpen l ∧
    (∀ n ch, (s.member n).channel = some ch → ch.link ≠ l) ∧ ∀ k, (β k).link? ≠ some l) :
    s.Held (update β c β') := by
  have hnew : ∀ {k l}, (update β c β' k).link? = some l →
      k = c ∧ β'.link? = some l ∨ k ≠ c ∧ (β k).link? = some l := by
    intro k l hk
    by_cases hkc : k = c
    · rw [hkc, Function.update_self] at hk
      exact .inl ⟨hkc, hk⟩
    · rw [Function.update_of_ne hkc] at hk
      exact .inr ⟨hkc, hk⟩
  constructor
  · exact h.channel
  · intro k l hk
    rcases hnew hk with ⟨-, hk⟩ | ⟨-, hk⟩
    · exact (hl l hk).1
    · exact h.hand k l hk
  · intro n ch k hn hk
    rcases hnew hk with ⟨-, hk⟩ | ⟨-, hk⟩
    · exact (hl _ hk).2.1 n ch hn rfl
    · exact h.apart n ch k hn hk
  · exact h.member
  · intro k d l hk hd
    rcases hnew hk with ⟨ek, hk'⟩ | ⟨-, hk'⟩ <;> rcases hnew hd with ⟨ed, hd'⟩ | ⟨-, hd'⟩
    · rw [ek, ed]
    · exact absurd hd' ((hl l hk').2.2 d)
    · exact absurd hk' ((hl l hd').2.2 k)
    · exact h.call k d l hk' hd'

end Standing.Held

namespace Broker

variable {ω : Type} {b : Broker ω} {β : Nat → Burden} {c : Nat} {β' : Burden}

/-- What an act does leaves each connection in one place, if it places or drops what the call has in
hand. -/
theorem held_act {a : Act} (hh : b.standing.Held β) (hl : ∀ l ∈ a.link?, (β c).link? = some l)
    (hβ : β'.link? = a.handAfter (β c).link?) : (b.act a).2.standing.Held (update β c β') := by
  have hkeep : a.link? = none → ∀ l, β'.link? = some l → (β c).link? = some l := by
    intro ha l hl
    rwa [hβ, Act.handAfter, ha] at hl
  cases a with
  | find id | roster => exact hh.burden (hkeep rfl)
  | reinstate r => exact Standing.Held.burden (hh.congr (fun _ => rfl) fun _ ho => ho) (hkeep rfl)
  | enrol kind id l =>
    rw [standing_enrol]
    exact hh.enrol kind id (hl l rfl) hβ
  | strike r =>
    rw [standing_strike]
    split
    · exact Standing.Held.burden (hh.congr (fun _ => rfl) fun _ ho => ho) (hkeep rfl)
    · exact hh.burden (hkeep rfl)
  | dismiss kind id =>
    rcases b.standing_dismiss kind id with e | e <;> rw [e]
    · exact hh.burden (hkeep rfl)
    · exact Standing.Held.burden (hh.congr (fun _ => rfl) fun _ ho => ho) (hkeep rfl)
  | advance r =>
    rw [standing_advance]
    refine Standing.Held.burden (hh.congr (fun k => Standing.channel_change ?_ _ _ _) fun _ => id)
      (hkeep rfl)
    exact fun _ => rfl
  | discard l =>
    change (b.hangUp l).standing.Held _
    rw [standing_hangUp]
    exact hh.drop (hl l rfl) hβ

/-- So does a turn, if it offers what the call has in hand. -/
theorem held_take {r : Ref} {turn : Turn} (hh : b.standing.Held β)
    (hl : ∀ l ∈ turn.link?, (β c).link? = some l)
    (hβ : β'.link? = turn.handAfter (β c).link? (b.take r.number turn).1)
    (hr : b.standing.Genuine r) : (b.take r.number turn).2.standing.Held (update β c β') := by
  cases turn with
  | offer g l =>
    rcases hx : (b.take r.number (.offer g l)).1 with _ | _ | _ <;> rw [hx] at hβ
    · obtain ⟨-, -, hst⟩ := take_offer_taken hx
      rw [hst]
      refine (hh.disconnect _).give r.number ⟨l, g⟩ (hl l rfl) hβ ?_ (fun k => ?_) rfl
      · rw [Standing.member_disconnect_self]
      · rw [Standing.member_change]
        by_cases hk : k = r.number
        · rw [if_pos ⟨hk, by simpa using hr.1⟩, if_pos hk]
        · rw [if_neg fun e => hk e.1, if_neg hk]
    · obtain ⟨-, -, hst⟩ := take_offer_superseded hx
      rw [hst, standing_hangUp]
      exact hh.drop (hl l rfl) hβ
    · obtain ⟨-, hst⟩ := take_offer_handedBack hx
      rw [hst]
      exact hh.burden fun k hk => by rwa [hβ] at hk
  | shut =>
    rw [standing_shut]
    refine Standing.Held.burden ((hh.disconnect _).congr
      (fun k => Standing.channel_change ?_ _ _ _) fun _ => id) fun k hk => by rwa [hβ] at hk
    exact fun _ => rfl
  | retire =>
    rcases hx : (b.take r.number .retire).1 with _ | _
    · obtain ⟨-, hst⟩ := take_retire_false hx
      rw [hst]
      exact hh.burden fun k hk => by rwa [hβ] at hk
    · obtain ⟨-, hst⟩ := take_retire_true hx
      rw [hst]
      refine Standing.Held.burden (hh.congr (fun k => ?_) fun _ ho => ho)
        fun k hk => by rwa [hβ] at hk
      exact Standing.channel_change (by intro; rfl) _ _ _
  | look => exact hh.burden fun k hk => by rwa [hβ] at hk

end Broker

/-- A connection that a member loses is closed. -/
theorem Standing.isClosed_disconnect {s : Standing} {β : Nat → Burden} {n : Nat} {ch : Channel}
    (h : s.Held β) (hn : (s.member n).channel = some ch) : (s.disconnect n).IsClosed ch.link := by
  rw [IsClosed, closed_disconnect hn]
  exact isClosed_hangUp (h.channel n ch hn)

/-- A member keeps its connection when one of the members loses its own, unless it is that one. -/
theorem Standing.channel_disconnect {s : Standing} {β : Nat → Burden} {n : Nat} {ch : Channel}
    (h : s.Held β) (k : Nat) (hn : (s.member n).channel = some ch) :
    ((s.disconnect k).member n).channel = some ch ∨ (s.disconnect k).IsClosed ch.link := by
  by_cases hk : n = k
  · subst hk
    exact .inr (isClosed_disconnect h hn)
  · rw [member_disconnect_ne s hk]
    exact .inl hn

end WorkerBroker
