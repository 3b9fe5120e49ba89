import WorkerBroker.Proofs.Exchange
import WorkerBroker.Proofs.Traffic
/-!
# The exchanges of the broker

The broker keeps to one exchange after the other on each connection, if workers do
(`Diligent`): the log of every run is accepted by the automaton of `Proofs.Exchange`, and where the
automaton is, is where the connection is (`Wire.Fits`).

An exchange can end without a reply in two ways. Mostly its connection is closed with it. But if
the member is about to get another connection, the old one stays in its place, and its generation is
behind that of the member from then on. The next command sees this and is not written
(`Standing.Spent`).
-/

namespace WorkerBroker

open Function (update)

/-! ## What effects keep -/

namespace Effect

variable {asked : Nat → Operation} {b : Broker Result} {m : Move Result} {β β' : Nat → Burden}
  {s' : Standing}

open Broker

/-- The generation of a member only advances. -/
theorem generation_le (he : Effect asked b m β s' β') (n : Nat) :
    (b.standing.member n).generation ≤ (s'.member n).generation := by
  cases he with
  | still _ | accepted _ | begun _ _ _ _ _ | finished _ _ _ | greeted _ _ _ _ _ =>
    exact Nat.le_refl _
  | failed k _ _ _ _ _ | released k _ _ =>
    exact Nat.le_of_eq (Standing.generation_disconnect _ k n).symm
  | acted c a β₁ _ _ _ _ => exact generation_act b a n
  | turned c r turn β₁ _ _ _ _ => exact Nat.le_of_eq (generation_take b r.number turn n).symm

/-- Connections that are installed are up to date. -/
theorem dated (he : Effect asked b m β s' β') (h : b.standing.Dated) : s'.Dated := by
  cases he with
  | still _ | accepted _ | begun _ _ _ _ _ | finished _ _ _ | greeted _ _ _ _ _ => exact h
  | failed k _ _ _ _ _ | released k _ _ => exact h.disconnect k
  | acted c a β₁ _ _ _ _ => exact dated_act h a
  | turned c r turn β₁ _ _ _ _ => exact dated_take h r.number turn

/-- A connection that is spent remains so. -/
theorem spent {l : Nat} (he : Effect asked b m β s' β') (hc : Course asked b β)
    (h : b.standing.Spent asked β l) : s'.Spent asked β' l := by
  rcases h with h | ⟨n, ch, hn, rfl, hg⟩ | ⟨k, hk, hleaves⟩
  · exact .inl (he.isClosed h)
  · rcases he.closes hc.held hn with hn' | hclosed
    · exact .inr (.inl ⟨n, ch, hn', rfl, Nat.lt_of_lt_of_le hg (he.generation_le n)⟩)
    · exact .inl hclosed
  · -- all that can be done with a connection that did not answer is to close it
    have hsame : ∀ {c β₁}, c ≠ k → update β c β₁ k = .spoilt l := fun hck =>
      (Function.update_of_ne (Ne.symm hck) _ _).trans hk
    cases he with
    | still _ | accepted _ | failed _ _ _ _ _ _ | released _ _ _ =>
      exact .inr (.inr ⟨k, hk, hleaves⟩)
    | begun op _ _ _ _ =>
      refine .inr (.inr ⟨k, hsame ?_, hleaves⟩)
      rintro rfl
      cases (hc.calls.idle _ (Nat.le_refl _)).symm.trans hk
    | finished c _ hl =>
      refine .inr (.inr ⟨k, hsame ?_, hleaves⟩)
      rintro rfl
      rw [hl] at hleaves
      cases hleaves
    | greeted c l' o _ hβ =>
      refine .inr (.inr ⟨k, hsame ?_, hleaves⟩)
      rintro rfl
      cases hβ.symm.trans hk
    | acted c a β₁ _ _ _ ha =>
      by_cases hck : c = k
      · subst hck
        have hopen := hc.held.hand c l (by rw [hk]; rfl)
        generalize hx : (b.act a).1 = x at ha
        rw [hk] at ha
        cases ha with
        | lookUp _ | roster => exact .inr (.inr ⟨c, Function.update_self .., hleaves⟩)
        | reject =>
          left
          change (b.hangUp l).standing.IsClosed l
          rw [standing_hangUp]
          exact Standing.isClosed_hangUp hopen
        | enrol hf | displace hf => rcases hf with hf | ⟨r, hf⟩ <;> cases hf
        | announce hf => rcases hf with ⟨-, hf⟩ | hf <;> cases hf
      · exact .inr (.inr ⟨k, hsame hck, hleaves⟩)
    | turned c r turn β₁ _ _ _ ht =>
      by_cases hck : c = k
      · subst hck
        generalize hx : (b.take r.number turn).1 = x at ht
        rw [hk] at ht
        cases ht with
        | look => exact .inr (.inr ⟨c, Function.update_self .., hleaves⟩)
      · exact .inr (.inr ⟨k, hsame hck, hleaves⟩)

end Effect

namespace Broker

variable {asked : Nat → Operation} {b b' : Broker Result} {m : Move Result} {β β' : Nat → Burden}
  {t u : Ticket} {l : Nat}

/-! ## Who has a connection -/

/-- A ticket has a connection: it is in front of the queue of the member whose connection it is, or
it is that of the call which has the connection in hand. -/
def Uses (b : Broker Result) (β : Nat → Burden) (t : Ticket) (l : Nat) : Prop :=
  (∃ n ch rest, (b.member n).channel = some ch ∧ ch.link = l ∧ b.queue n = t :: rest) ∨
    t.leg = 0 ∧ β t.call = .carries l none

theorem MayWrite.uses (h : b.MayWrite β t l) : b.Uses β t l :=
  h.imp_left fun ⟨n, ch, rest, hch, hl, _, hn⟩ => ⟨n, ch, rest, hch, hl, hn⟩

/-- One ticket at a time has a connection. -/
theorem Uses.ext (h : b.Uses β t l) (h' : b.Uses β u l) (hh : b.standing.Held β) : t = u := by
  rcases h with ⟨n, ch, rest, hch, rfl, hn⟩ | ⟨hleg, hβ⟩ <;>
    rcases h' with ⟨k, ch', rest', hch', hl', hk⟩ | ⟨hleg', hβ'⟩
  · rw [← channel_standing] at hch hch'
    obtain rfl := hh.member n k ch ch' hch hch' hl'.symm
    rw [hn] at hk
    exact (List.cons.inj hk).1
  · rw [← channel_standing] at hch
    exact absurd (by rw [hβ']; rfl) (hh.apart n ch u.call hch)
  · subst hl'
    rw [← channel_standing] at hch'
    exact absurd (by rw [hβ]; rfl) (hh.apart k ch' t.call hch')
  · have hcall := hh.call t.call u.call l (by rw [hβ]; rfl) (by rw [hβ']; rfl)
    cases t
    cases u
    cases hcall
    cases hleg
    cases hleg'
    rfl

/-- Whoever speaks has the connection. -/
theorem Course.uses (hc : Course asked b β) (h : b.speaks? t = some l) : b.Uses β t l := by
  obtain ⟨p, hp, hs⟩ := Option.bind_eq_some_iff.1 h
  cases p with
  | conversing legs next =>
    obtain ⟨leg, hl, hlink⟩ := Option.bind_eq_some_iff.1 hs
    obtain ⟨r, command, state⟩ := leg
    cases state with
    | talking l' d =>
      cases hlink
      have ht : b.talking? t = some (r.number, l, d) := by simp only [talking?, hp, hl]
      obtain ⟨rest, hr⟩ := hc.order.front t _ l d ht
      obtain ⟨g, hg⟩ := hc.order.channel t _ l d ht
      exact .inl ⟨r.number, ⟨l, g⟩, rest, hg, rfl, hr⟩
    | queued | ended _ => cases hlink
  | greeting l' d next =>
    simp only [Phase.speaks?] at hs
    split at hs
    · cases hs
      obtain ⟨call, hcall, hph⟩ := exists_call_of_phase hp
      exact .inr ⟨‹_›, (hph ▸ hc.calls.bears t.call call hcall).1⟩
    · cases hs
  | running _ | entering _ _ _ | finished _ | abandoned => cases hs

/-- One ticket at a time speaks on a connection. -/
theorem Course.speaks_ext (hc : Course asked b β) (h : b.speaks? t = some l)
    (h' : b.speaks? u = some l) : t = u :=
  (hc.uses h).ext (hc.uses h') hc.held

/-- Nobody writes on a connection that is spent. -/
theorem MayWrite.not_spent (h : b.MayWrite β t l) (hh : b.standing.Held β) :
    ¬b.standing.Spent asked β l := by
  rintro (hclosed | ⟨k, ch', hk, hl', hg⟩ | ⟨k, hk, -⟩)
  · rcases h with ⟨n, ch, rest, hch, rfl, -⟩ | ⟨-, hβ⟩
    · rw [← channel_standing] at hch
      cases hclosed.symm.trans (hh.channel n ch hch)
    · cases hclosed.symm.trans (hh.hand t.call l (by rw [hβ]; rfl))
  · rcases h with ⟨n, ch, rest, hch, rfl, hcur, -⟩ | ⟨-, hβ⟩
    · rw [← channel_standing] at hch
      obtain rfl := hh.member n k ch ch' hch hk hl'.symm
      cases hch.symm.trans hk
      rw [generation_standing, hcur] at hg
      exact absurd hg (Nat.lt_irrefl _)
    · exact hh.apart k ch' t.call hk (by rw [hβ, hl']; rfl)
  · rcases h with ⟨n, ch, rest, hch, rfl, -⟩ | ⟨-, hβ⟩
    · rw [← channel_standing] at hch
      exact hh.apart n ch k hch (by rw [hk]; rfl)
    · obtain rfl := hh.call t.call k l (by rw [hβ]; rfl) (by rw [hk]; rfl)
      cases hβ.symm.trans hk

end Broker

/-! ## Logs that are accepted -/

/-- Workers answer each line once and say nothing else, and nobody who waits for a reply is given
up. -/
def Diligent (past : List (Deed Result)) : Move Result → Prop
  | .signal l (.bytes _) => (answersOn l (log past)).length < (linesOn l (log past)).length
  | .abandon _ => False
  | _ => True

instance (past : List (Deed Result)) (m : Move Result) : Decidable (Diligent past m) :=
  match m with
  | .signal _ (.bytes _) => inferInstanceAs (Decidable (_ < _))
  | .abandon _ => inferInstanceAs (Decidable False)
  | .signal _ .ended | .signal _ .reset | .start _ _ _ | .run _ | .serve _ | .receive _ _
  | .supersede _ _ | .expire _ _ | .hear _ | .giveUp _ | .accept | .release _ | .pass _ =>
    inferInstanceAs (Decidable True)

/-- Where the automaton is, is where the exchange on the connection is. -/
def Wire.Fits (asked : Nat → Operation) (b : Broker Result) (β : Nat → Burden) (l : Nat) :
    Wire → Prop
  | idle => (∀ t, b.speaks? t ≠ some l) ∧ (b.carried l).2 = []
  | waiting t => b.speaks? t = some l ∧ (b.carried l).2 = []
  | answered t bytes => b.speaks? t = some l ∧ (b.carried l).2 = bytes
  | dead => (∀ t, b.speaks? t ≠ some l) ∧ b.standing.Spent asked β l

/-- The lines on each connection are those that were seen, and its log is accepted. -/
structure Orderly (asked : Nat → Operation) (past : List (Deed Result)) (b : Broker Result)
    (β : Nat → Burden) : Prop where
  dated : b.standing.Dated
  lines : ∀ l, (b.carried l).1 = linesOn l (log past)
  wires : ∀ l, ∃ w, Wire.idle.after l (log past) = some w ∧ w.Fits asked b β l

open Broker

/-- Answers come from workers. -/
theorem Deed.signal_of_answered {d : Deed Result} {l : Nat} {bytes : Bytes}
    (h : d.event? = some (.answered l bytes)) : d.move = .signal l (.bytes bytes) := by
  have hwriting : ∀ (t : Ticket) (k : Nat) (line : String),
      d.before.writing t k line ≠ .answered l bytes := by
    intro t k line e
    rw [writing] at e
    split at e <;> cases e
  have hhearing : ∀ (t : Ticket) (k : Nat), d.before.hearing t k ≠ some (.answered l bytes) := by
    intro t k e
    obtain ⟨r, -, hr⟩ := Option.map_eq_some_iff.1 e
    cases hr
  obtain ⟨b, m⟩ := d
  cases m with
  | run c =>
    simp only [event?] at h
    split at h
    · exact absurd (Option.some.inj h) (hwriting _ _ _)
    · cases h
  | serve n =>
    simp only [event?, serving] at h
    split at h
    · split at h
      · split at h
        · exact absurd (Option.some.inj h) (hwriting _ _ _)
        · cases h
      · cases h
    · cases h
  | receive c leg =>
    obtain ⟨x, -, hx⟩ := Option.bind_eq_some_iff.1 h
    exact absurd hx (hhearing _ _)
  | supersede c leg | expire c leg =>
    obtain ⟨x, -, hx⟩ := Option.map_eq_some_iff.1 h
    cases hx
  | hear c =>
    simp only [event?] at h
    split at h
    · exact absurd h (hhearing _ _)
    · cases h
  | giveUp c =>
    simp only [event?] at h
    split at h <;> cases h
  | signal k s =>
    cases s with
    | bytes bs =>
      simp only [event?] at h
      split at h <;> cases h
      rfl
    | ended | reset => cases h
  | _ => cases h

/-- What can be seen on one connection changes nothing on another: the same ticket speaks there, and
as much is carried. -/
theorem Traffic.elsewhere {asked : Nat → Operation} {b b' : Broker Result} {β β' : Nat → Burden}
    {e : Option Event} {l : Nat} (h : Traffic asked b β b' β' e) (he : ∀ x ∈ e, x.link ≠ l) :
    (∀ u, b'.speaks? u = some l ↔ b.speaks? u = some l) ∧ b'.carried l = b.carried l := by
  cases h with
  | quiet hs hl => exact ⟨fun u => by rw [hs], hl l⟩
  | wrote t k line hw ht hs hl =>
    have hk : k ≠ l := he _ rfl
    refine ⟨fun u => ?_, by rw [hl, if_neg (Ne.symm hk)]⟩
    rw [hs]
    split
    · rename_i hu
      rw [hu, ht]
      exact iff_of_false (fun e => hk (Option.some.inj e)) nofun
    · rfl
  | answered k bytes hs hl =>
    have hk : k ≠ l := he _ rfl
    exact ⟨fun u => by rw [hs], by rw [hl, if_neg (Ne.symm hk)]⟩
  | ended t k o ht hs hl hok herr =>
    have hk : k ≠ l := he _ rfl
    refine ⟨fun u => ?_, (hl l).2 (Ne.symm hk)⟩
    rw [hs]
    split
    · rename_i hu
      refine iff_of_false nofun fun e => ?_
      rw [hu] at e
      rcases ht with ht | ⟨ht, -⟩
      · exact hk (Option.some.inj (ht.symm.trans e))
      · cases ht.symm.trans e
    · rfl

namespace Wire

variable {asked : Nat → Operation} {b b' : Broker Result} {β β' : Nat → Burden} {l : Nat} {w : Wire}
  {t : Ticket}

theorem Fits.congr (h : w.Fits asked b β l)
    (hs : ∀ u, b'.speaks? u = some l ↔ b.speaks? u = some l)
    (hl : (b'.carried l).2 = (b.carried l).2)
    (hspent : b.standing.Spent asked β l → b'.standing.Spent asked β' l) :
    w.Fits asked b' β' l := by
  cases w with
  | idle => exact ⟨fun u hu => h.1 u ((hs u).1 hu), hl.trans h.2⟩
  | waiting t => exact ⟨(hs t).2 h.1, hl.trans h.2⟩
  | answered t bytes => exact ⟨(hs t).2 h.1, hl.trans h.2⟩
  | dead => exact ⟨fun u hu => h.1 u ((hs u).1 hu), hspent h.2⟩

/-- Where somebody may write and does not speak yet, nothing is going on. -/
theorem Fits.idle_of_mayWrite (h : w.Fits asked b β l) (hc : Course asked b β)
    (hw : b.MayWrite β t l) (ht : b.speaks? t = none) : w = idle := by
  have hno : ∀ u, b.speaks? u ≠ some l := by
    intro u hu
    obtain rfl := (hc.uses hu).ext hw.uses hc.held
    cases ht.symm.trans hu
  cases w with
  | idle => rfl
  | waiting u => exact absurd h.1 (hno u)
  | answered u bytes => exact absurd h.1 (hno u)
  | dead => exact absurd h.2 (hw.not_spent hc.held)

/-- Where somebody speaks, it is his exchange that is going on. -/
theorem Fits.of_speaks (h : w.Fits asked b β l) (hc : Course asked b β)
    (ht : b.speaks? t = some l) :
    w = .waiting t ∧ (b.carried l).2 = [] ∨ w = .answered t (b.carried l).2 := by
  cases w with
  | idle => exact absurd ht (h.1 t)
  | waiting u =>
    obtain rfl := hc.speaks_ext h.1 ht
    exact .inl ⟨rfl, h.2⟩
  | answered u bytes =>
    obtain rfl := hc.speaks_ext h.1 ht
    exact .inr (by rw [h.2])
  | dead => exact absurd ht (h.1 t)

/-- When somebody has ceased to speak on a connection, nobody does. -/
theorem silent_of_ended (hu : ∀ u, b.speaks? u = some l → u = t)
    (hs : ∀ u, b'.speaks? u = if u = t then none else b.speaks? u) (u : Ticket) :
    b'.speaks? u ≠ some l := by
  rw [hs]
  split
  · exact nofun
  · rename_i hne
    exact fun h => hne (hu u h)

/-- The automaton follows what can be seen of a move, and comes to where the connection is then. -/
theorem Fits.step {e : Option Event} (h : w.Fits asked b β l) (hc : Course asked b β)
    (ht : Traffic asked b β b' β' e)
    (hspent : b.standing.Spent asked β l → b'.standing.Spent asked β' l)
    (hanswer : ∀ bytes, e = some (.answered l bytes) → (∃ t, w = waiting t) ∨ w = dead) :
    ∃ w', w.after l e.toList = some w' ∧ w'.Fits asked b' β' l := by
  have hother : ∀ x : Event, e = some x → x.link ≠ l →
      ∃ w', w.after l [x] = some w' ∧ w'.Fits asked b' β' l := by
    rintro x rfl hx
    obtain ⟨hs, hl⟩ := ht.elsewhere (l := l) fun y hy => by cases hy; exact hx
    refine ⟨w, ?_, h.congr hs (by rw [hl]) hspent⟩
    rw [after, next_ne hx]
    rfl
  have hself : ∀ (e : Event) (w' : Wire), e.link = l → w.on e = some w' →
      w.after l [e] = some w' := fun e w' he hw => by
    rw [after, next_self he, hw]
    rfl
  cases ht with
  | quiet hs hl => exact ⟨w, rfl, h.congr (fun u => by rw [hs]) (by rw [hl]) hspent⟩
  | wrote t k line hw ht hs hl =>
    by_cases hk : k = l
    · subst hk
      obtain rfl := h.idle_of_mayWrite hc hw ht
      refine ⟨waiting t, hself _ _ rfl rfl, ?_, ?_⟩
      · rw [hs, if_pos rfl]
      · rw [hl, if_pos rfl]
        exact h.2
    · exact hother _ rfl hk
  | answered k bytes hs hl =>
    by_cases hk : k = l
    · subst hk
      rcases hanswer bytes rfl with ⟨t, rfl⟩ | rfl
      · refine ⟨answered t bytes, hself _ _ rfl rfl, ?_, ?_⟩
        · rw [hs]
          exact h.1
        · rw [hl, if_pos rfl, h.2]
          rfl
      · exact ⟨dead, hself _ _ rfl rfl, fun u hu => h.1 u ((hs u).symm.trans hu), hspent h.2⟩
    · exact hother _ rfl hk
  | ended t k o ht hs hl hok herr =>
    by_cases hk : k = l
    · subst hk
      rcases ht with ht | ⟨ht, hw, s, rfl⟩
      · have hsilent := silent_of_ended (l := k) (fun u hu => hc.speaks_ext hu ht) hs
        cases o with
        | ok raw =>
          obtain ⟨hq, hne, hq'⟩ := hok raw rfl
          rcases h.of_speaks hc ht with ⟨-, hq₀⟩ | hw
          · exact absurd (hq.symm.trans hq₀) hne
          · refine ⟨idle, hself _ _ rfl ?_, hsilent, hq'⟩
            rw [hw, hq]
            exact if_pos ⟨rfl, rfl⟩
        | error s =>
          refine ⟨dead, hself _ _ rfl ?_, hsilent, herr s rfl⟩
          rcases h.of_speaks hc ht with ⟨rfl, -⟩ | hw
          · exact if_pos rfl
          · rw [hw]
            exact if_pos rfl
      · obtain rfl := h.idle_of_mayWrite hc hw ht
        refine ⟨dead, hself _ _ rfl rfl, fun u => ?_, herr s rfl⟩
        rw [hs, speaks?_of_quiet ht]
        exact h.1 u
    · exact hother _ rfl hk

end Wire

section

variable {asked : Nat → Operation} {b b' : Broker Result} {m : Move Result} {β β' : Nat → Burden}
  {past : List (Deed Result)}

/-- The lines on a connection are those that can be seen. -/
theorem Traffic.lines {e : Option Event} (h : Traffic asked b β b' β' e) (l : Nat) :
    (b'.carried l).1 = (b.carried l).1 ++ linesOn l e.toList := by
  cases h with
  | quiet _ hl =>
    rw [hl]
    exact (List.append_nil _).symm
  | wrote t k line _ _ _ hl =>
    rw [hl]
    by_cases hk : k = l
    · subst hk
      rw [if_pos rfl]
      simp [linesOn, Event.link, Event.line?]
    · rw [if_neg (Ne.symm hk)]
      simp [linesOn, Event.link, hk]
  | answered k bytes _ hl =>
    rw [hl]
    by_cases hk : k = l
    · subst hk
      rw [if_pos rfl]
      simp [linesOn, Event.link, Event.line?]
    · rw [if_neg (Ne.symm hk)]
      simp [linesOn, Event.link, hk]
  | ended t k o _ _ hl _ _ =>
    rw [(hl l).1]
    by_cases hk : k = l <;> simp [linesOn, Event.link, Event.line?, hk]

/-- A worker that is diligent answers a line, maybe too late. -/
theorem Diligent.answers {l : Nat} {bytes : Bytes} {w : Wire} (hd : Diligent past m)
    (he : Deed.event? ⟨b, m⟩ = some (.answered l bytes))
    (hw : Wire.idle.after l (log past) = some w) : (∃ t, w = .waiting t) ∨ w = .dead := by
  obtain rfl : m = .signal l (.bytes bytes) := Deed.signal_of_answered he
  have hlt : (answersOn l (log past)).length < (linesOn l (log past)).length := hd
  cases w with
  | waiting t => exact .inl ⟨t, rfl⟩
  | dead => exact .inr rfl
  | idle | answered _ _ =>
    have hlen := Wire.length_linesOn hw nofun
    simp only [Wire.owed] at hlen
    omega

/-- Nothing has been seen. -/
theorem Orderly.fresh (asked : Nat → Operation) (timeout : Nat) :
    Orderly asked [] (Broker.fresh timeout) fun _ => .nothing where
  dated n ch h := by cases h
  lines _ := rfl
  wires l := ⟨.idle, rfl, nofun, rfl⟩

/-- All remains in order, whatever happens. -/
theorem Orderly.step (h : Orderly asked past b β) (hm : Stride asked b m β b' β')
    (hd : Diligent past m) : Orderly asked (past ++ [⟨b, m⟩]) b' β' := by
  have ht := hm.traffic h.dated (by rintro c rfl; exact hd)
  refine ⟨hm.effect.dated h.dated, fun l => ?_, fun l => ?_⟩
  · rw [log_snoc, linesOn_append, ← h.lines]
    exact ht.lines l
  · obtain ⟨w, hw, hf⟩ := h.wires l
    obtain ⟨w', hw', hf'⟩ := hf.step hm.before ht (hm.effect.spent hm.before)
      fun bytes he => hd.answers he hw
    refine ⟨w', ?_, hf'⟩
    rw [log_snoc, Wire.after_append, hw]
    exact hw'

end

end WorkerBroker
