import WorkerBroker.Broker.Move
/-!
# How moves are made

`Broker.Makes` lists the ways a move is made: what has to be so before, and what the broker is
afterwards. A move is possible in these ways and no other (`Broker.makes_of_step`,
`Broker.Makes.step`), and this is the one place where that is looked at: what moves keep, and what can
be seen of them, goes by the cases of `Makes` and has no need of the definition of `Broker.step`.
-/

namespace WorkerBroker

namespace Broker

variable {ω : Type} {b b' : Broker ω} {m : Move ω}

/-- The ways a move is made. -/
inductive Makes (b : Broker ω) : Move ω → Broker ω → Prop where
  | starts (program : Program ω) (refs : List Ref) (brings : Option Nat) :
      Makes b (.start program refs brings)
        { b with calls := b.calls ++ [⟨.running program, refs, brings⟩] }
  | runs {c : Nat} {p : Program ω} (hp : b.phase? c = some (.running p)) :
      Makes b (.run c) (b.stepProgram c p)
  /-- a member gives a call its turn -/
  | turns {n : Nat} {t : Ticket} {rest : List Ticket} {r : Ref} {turn : Turn}
      {next : turn.Answer → Program ω} (hn : (b.member n).queue = t :: rest)
      (hp : b.phase? t.call = some (.entering r turn next)) :
      Makes b (.serve n) (((b.take n turn).2.serveNext n).setPhase t.call
        (.running (next (b.take n turn).1)))
  /-- a member turns to a command -/
  | begins {n : Nat} {t : Ticket} {rest : List Ticket} {legs : List Leg} {r : Ref}
      {command : Command} {next : List Outcome → Program ω}
      (hn : (b.member n).queue = t :: rest)
      (hp : b.phase? t.call = some (.conversing legs next))
      (hl : legs[t.leg]? = some ⟨r, command, .queued⟩) :
      Makes b (.serve n) (b.beginExchange n t command)
  | receives {c leg n l d : Nat} {o : Outcome} {rest : Link}
      (ht : b.talking? ⟨c, leg⟩ = some (n, l, d)) (hr : (b.link l).receive? = some (o, rest)) :
      Makes b (.receive c leg) ((b.changeLink l fun _ => rest).settle n ⟨c, leg⟩ o)
  | supersedes {c leg n l d : Nat} {ch : Channel} (ht : b.talking? ⟨c, leg⟩ = some (n, l, d))
      (hch : (b.member n).channel = some ch) (hg : ch.generation ≠ (b.member n).generation) :
      Makes b (.supersede c leg) (b.conclude n ⟨c, leg⟩ (.error .replaced))
  | expires {c leg n l d : Nat} (ht : b.talking? ⟨c, leg⟩ = some (n, l, d)) (hd : d ≤ b.clock) :
      Makes b (.expire c leg) (b.settle n ⟨c, leg⟩ (.error .timedOut))
  | hears {c l d : Nat} {next : Outcome → Program ω} {o : Outcome} {rest : Link}
      (hp : b.phase? c = some (.greeting l d next))
      (hr : (b.link l).receive? = some (o, rest)) :
      Makes b (.hear c) ((b.changeLink l fun _ => rest).setPhase c (.running (next o)))
  | givesUp {c l d : Nat} {next : Outcome → Program ω}
      (hp : b.phase? c = some (.greeting l d next)) (hd : d ≤ b.clock) :
      Makes b (.giveUp c) (b.setPhase c (.running (next (.error .timedOut))))
  | abandons {c : Nat} {call : Call ω} (hc : b.calls[c]? = some call) (ha : call.isActive)
      (hb : call.brings = none) : Makes b (.abandon c) ((b.withdraw c).setPhase c .abandoned)
  | accepts : Makes b .accept { b with links := b.links ++ [.fresh] }
  | signals (l : Nat) (s : Signal) : Makes b (.signal l s) (b.changeLink l (Link.arrive s))
  | releases {n : Nat} (hch : (b.member n).channel.isSome) (hu : b.isInUse n = false) :
      Makes b (.release n) (b.disconnect n)
  | passes (time : Nat) : Makes b (.pass time) { b with clock := b.clock + time }

/-- A member serves a call that waits for its turn, or a command. -/
theorem makes_of_serveTicket {n : Nat} {t : Ticket} {rest : List Ticket}
    (hn : (b.member n).queue = t :: rest) (hm : b.serveTicket n t = some b') :
    Makes b (.serve n) b' := by
  simp only [serveTicket] at hm
  split at hm
  · rename_i hp
    cases hm
    exact .turns hn hp
  · rename_i hp
    split at hm
    · rename_i hl
      cases hm
      exact .begins hn hp hl
    · cases hm
  · cases hm

/-- Every move that is possible is made in one of these ways. -/
theorem makes_of_step (hm : b.step m = some b') : Makes b m b' := by
  cases m with
  | start program refs brings =>
    cases hm
    exact .starts program refs brings
  | run c =>
    simp only [step] at hm
    split at hm
    · rename_i hp
      cases hm
      exact .runs hp
    · cases hm
  | serve n =>
    simp only [step] at hm
    split at hm
    · rename_i hn
      exact makes_of_serveTicket hn hm
    · cases hm
  | receive c leg =>
    simp only [step, Option.bind_eq_bind, Option.bind_eq_some_iff, Option.pure_def] at hm
    obtain ⟨⟨n, l, d⟩, ht, ⟨o, rest⟩, hr, hb⟩ := hm
    cases hb
    exact .receives ht hr
  | supersede c leg =>
    simp only [step, Option.bind_eq_bind, Option.bind_eq_some_iff] at hm
    obtain ⟨⟨n, l, d⟩, ht, ch, hch, hb⟩ := hm
    split at hb
    · cases hb
    · rename_i hg
      cases hb
      exact .supersedes ht hch hg
  | expire c leg =>
    simp only [step, Option.bind_eq_bind, Option.bind_eq_some_iff] at hm
    obtain ⟨⟨n, l, d⟩, ht, hb⟩ := hm
    split at hb
    · rename_i hd
      cases hb
      exact .expires ht hd
    · cases hb
  | hear c =>
    simp only [step] at hm
    split at hm
    · rename_i hp
      simp only [Option.bind_eq_bind, Option.bind_eq_some_iff, Option.pure_def] at hm
      obtain ⟨⟨o, rest⟩, hr, hb⟩ := hm
      cases hb
      exact .hears hp hr
    · cases hm
  | giveUp c =>
    simp only [step] at hm
    split at hm
    · rename_i hp
      split at hm
      · rename_i hd
        cases hm
        exact .givesUp hp hd
      · cases hm
    · cases hm
  | abandon c =>
    simp only [step] at hm
    split at hm
    · rename_i call hc
      split at hm
      · rename_i h
        obtain ⟨ha, hb⟩ := Bool.and_eq_true_iff.1 h
        cases hm
        exact .abandons hc ha (Option.isNone_iff_eq_none.1 hb)
      · cases hm
    · cases hm
  | accept =>
    cases hm
    exact .accepts
  | signal l s =>
    cases hm
    exact .signals l s
  | release n =>
    simp only [step] at hm
    split at hm
    · rename_i h
      obtain ⟨hch, hu⟩ := Bool.and_eq_true_iff.1 h
      cases hm
      exact .releases hch (by simpa using hu)
    · cases hm
  | pass time =>
    cases hm
    exact .passes time

/-- What can be made in one of these ways is possible. -/
theorem Makes.step (h : Makes b m b') : b.step m = some b' := by
  cases h with
  | starts _ _ _ | accepts | signals _ _ | passes _ => rfl
  | runs hp => simp only [Broker.step, hp]
  | turns hn hp => simp only [Broker.step, hn, serveTicket, hp]
  | begins hn hp hl => simp only [Broker.step, hn, serveTicket, hp, hl]
  | receives ht hr =>
    simp only [Broker.step, ht, hr, Option.bind_eq_bind, Option.bind_some, Option.pure_def]
  | supersedes ht hch hg =>
    simp only [Broker.step, ht, hch, hg, Option.bind_eq_bind, Option.bind_some, if_false]
  | expires ht hd =>
    simp only [Broker.step, ht, hd, Option.bind_eq_bind, Option.bind_some, if_true]
  | hears hp hr =>
    simp only [Broker.step, hp, hr, Option.bind_eq_bind, Option.bind_some, Option.pure_def]
  | givesUp hp hd => simp only [Broker.step, hp, hd, if_true]
  | abandons hc ha hb => simp [Broker.step, hc, ha, hb]
  | releases hch hu => simp [Broker.step, hch, hu]

end Broker

end WorkerBroker
