import Mathlib.Data.List.Induction
import WorkerBroker.Proofs.Exchange
/-!
# Answers that nobody has read

Whoever waits for a reply may be given up. His line has been written then, its answer will come, and
the connection is used further. So what can be seen on a connection is no longer one exchange after
the other, as it is in `Proofs.Exchange`.

A `Ledger` is the account of a connection instead: who has written a line, what the worker has
answered, how much of this has been read, and whose line was the last if its exchange has not ended.
What is read next is all that has not been read. A log is `Coherent` if each thing in it can be seen
after what comes before: in particular a line is written only when every exchange before has ended
or has been given up.

In such a log, what is read as the reply to a line is made of whole answers, in order, from the
first that has not been read (`Coherent.reply_of_exchange`). That is the answer to this very line
unless somebody who wrote before on the connection has been given up (`Coherent.answer_or_gone`).
Right after that it is not: it begins with the answer to an earlier line
(`Coherent.answer_of_waiting`).

That the logs of the broker are coherent is shown in `Proofs.Departures`.
-/

namespace WorkerBroker

/-- The account of a connection. -/
structure Ledger where
  /-- who has written a line, in order -/
  writers : List Ticket
  answers : List Bytes
  /-- how many answers have been read -/
  heard : Nat
  /-- whose line was the last, if its exchange has not ended -/
  waiting : Option Ticket
  /-- an exchange has ended without a reply -/
  failed : Bool
  deriving DecidableEq

namespace Ledger

def empty : Ledger := ⟨[], [], 0, none, false⟩

/-- The answers that have not been read. -/
def unread (k : Ledger) : List Bytes := k.answers.drop k.heard

/-- Something is seen on the connection. -/
def on (k : Ledger) : Event → Ledger
  | .wrote t _ _ => { k with writers := k.writers ++ [t], waiting := some t }
  | .answered _ bytes => { k with answers := k.answers ++ [bytes] }
  | .ended _ _ (.ok _) => { k with heard := k.answers.length, waiting := none }
  | .ended _ _ (.error _) => { k with waiting := none, failed := true }

/-- Whether something can be seen on the connection, if the calls that are gone are those in `gone`:

* a line, unless an exchange has failed or somebody waits who is not gone;
* an answer to a line;
* a reply to whoever waits, which is all that has not been read;
* and that there is none. -/
def Allows (gone : Nat → Prop) (k : Ledger) : Event → Prop
  | .wrote _ _ _ => k.failed = false ∧ ∀ u, k.waiting = some u → gone u.call
  | .answered _ _ => k.answers.length < k.writers.length
  | .ended t _ (.ok raw) => k.waiting = some t ∧ raw = k.unread.flatten ∧ raw ≠ []
  | .ended _ _ (.error _) => True

/-- How writers and answers go together. -/
structure Balanced (gone : Nat → Prop) (k : Ledger) : Prop where
  heard_le : k.heard ≤ k.answers.length
  fair : k.answers.length ≤ k.writers.length
  /-- the answer to whoever waits has not been read -/
  waits : ∀ u, k.waiting = some u → u ∈ k.writers ∧ k.heard < k.writers.length
  /-- all answers but the one that is waited for have been read, unless somebody is gone -/
  upToDate : k.failed = true ∨ (∃ u ∈ k.writers, gone u.call) ∨
    k.heard + k.waiting.toList.length = k.writers.length

variable {gone : Nat → Prop} {k : Ledger} {e : Event}

/-- If anything is unread, more answers have arrived than have been read. -/
theorem heard_lt_of_flatten_ne (h : k.unread.flatten ≠ []) : k.heard < k.answers.length := by
  by_contra hle
  refine h ?_
  rw [unread, List.drop_eq_nil_of_le (Nat.le_of_not_lt hle)]
  rfl

/-- Whoever writes has nothing unread before him, unless somebody who has written is gone. -/
theorem Balanced.of_wrote {t : Ticket} {l : Nat} {line : String} (h : k.Balanced gone)
    (he : k.Allows gone (.wrote t l line)) :
    (∃ u ∈ k.writers, gone u.call) ∨ k.waiting = none ∧ k.heard = k.writers.length := by
  obtain ⟨hfailed, hgone⟩ := he
  -- whoever still waits is gone
  rcases hw : k.waiting with _ | u
  · have hsum := h.upToDate.resolve_left (by rw [hfailed]; nofun)
    rw [hw] at hsum
    exact hsum.imp_right fun hsum => ⟨rfl, hsum⟩
  · exact .inl ⟨u, (h.waits u hw).1, hgone u hw⟩

/-- The account remains balanced. -/
theorem Balanced.step (h : k.Balanced gone) (he : k.Allows gone e) : (k.on e).Balanced gone := by
  have hle := Nat.le_trans h.heard_le h.fair
  cases e with
  | wrote t l line =>
    have hlen : (k.writers ++ [t]).length = k.writers.length + 1 := List.length_append
    refine ⟨h.heard_le, ?_, fun u hu => ?_, .inr ?_⟩ <;> simp only [on]
    · rw [hlen]
      exact Nat.le_succ_of_le h.fair
    · obtain rfl := Option.some.inj hu
      rw [hlen]
      exact ⟨List.mem_concat_self, Nat.lt_succ_of_le hle⟩
    · rw [hlen]
      rcases h.of_wrote he with ⟨u, hu, hg⟩ | ⟨hw, hheard⟩
      · exact .inl ⟨u, List.mem_append_left _ hu, hg⟩
      · exact .inr (congrArg (· + 1) hheard)
  | answered l bytes =>
    have hlt : k.answers.length < k.writers.length := he
    have hlen : (k.answers ++ [bytes]).length = k.answers.length + 1 := List.length_append
    refine ⟨?_, ?_, h.waits, h.upToDate⟩ <;> simp only [on]
    · rw [hlen]
      exact Nat.le_succ_of_le h.heard_le
    · rw [hlen]
      exact hlt
  | ended t l o =>
    cases o with
    | ok raw =>
      obtain ⟨hw, rfl, hne⟩ := he
      refine ⟨Nat.le_refl _, h.fair, nofun, h.upToDate.imp_right (.imp_right fun hsum => ?_)⟩
      have hlt := heard_lt_of_flatten_ne hne
      have hfair := h.fair
      -- only one answer was to come, and something has been read
      rw [hw] at hsum
      simp only [on, Option.toList_some, List.length_singleton, Option.toList_none,
        List.length_nil] at hsum ⊢
      omega
    | error s => exact ⟨h.heard_le, h.fair, nofun, .inl rfl⟩

/-- Nothing has been seen. -/
theorem balanced_empty : empty.Balanced gone where
  heard_le := Nat.le_refl _
  fair := Nat.le_refl _
  waits := nofun
  upToDate := .inr (.inr rfl)

end Ledger

/-! ## The account of a log -/

/-- The account of a connection after what has been seen. -/
def ledger (l : Nat) (log : List Event) : Ledger :=
  log.foldl (fun k e => if e.link = l then k.on e else k) .empty

theorem ledger_snoc (l : Nat) (log : List Event) (e : Event) :
    ledger l (log ++ [e]) = if e.link = l then (ledger l log).on e else ledger l log :=
  List.foldl_append ..

theorem linesOn_snoc (l : Nat) (log : List Event) (e : Event) :
    linesOn l (log ++ [e]) = linesOn l log ++ if e.link = l then e.line?.toList else [] := by
  rw [linesOn_append, linesOn_cons]
  exact congrArg _ (List.append_nil _)

theorem answersOn_snoc (l : Nat) (log : List Event) (e : Event) :
    answersOn l (log ++ [e]) = answersOn l log ++ if e.link = l then e.answer?.toList else [] := by
  rw [answersOn_append, answersOn_cons]
  exact congrArg _ (List.append_nil _)

theorem answers_ledger (l : Nat) (log : List Event) :
    (ledger l log).answers = answersOn l log := by
  induction log using List.reverseRecOn with
  | nil => rfl
  | append_singleton log e ih =>
    rw [ledger_snoc, answersOn_snoc, ← ih]
    split
    · cases e with
      | ended t k o => cases o <;> exact (List.append_nil _).symm
      | wrote t k line => exact (List.append_nil _).symm
      | answered k bytes => rfl
    · exact (List.append_nil _).symm

/-- Each line has its writer. -/
theorem length_writers_ledger (l : Nat) (log : List Event) :
    (ledger l log).writers.length = (linesOn l log).length := by
  induction log using List.reverseRecOn with
  | nil => rfl
  | append_singleton log e ih =>
    rw [ledger_snoc, linesOn_snoc, List.length_append, ← ih]
    split
    · cases e with
      | ended t k o => cases o <;> rfl
      | wrote t k line => exact List.length_append
      | answered k bytes => rfl
    · rfl

/-- Whoever has written is never taken out of the account. -/
theorem writers_prefix (l : Nat) (xs ys : List Event) :
    (ledger l xs).writers <+: (ledger l (xs ++ ys)).writers := by
  induction ys using List.reverseRecOn with
  | nil => simp
  | append_singleton ys e ih =>
    refine ih.trans ?_
    rw [← List.append_assoc, ledger_snoc]
    split
    · cases e with
      | wrote t k line => exact List.prefix_append ..
      | answered k bytes => exact List.prefix_refl _
      | ended t k o => cases o <;> exact List.prefix_refl _
    · exact List.prefix_refl _

theorem mem_writers_ledger {l : Nat} {log : List Event} {t : Ticket}
    (h : t ∈ (ledger l log).writers) : ∃ line, .wrote t l line ∈ log := by
  induction log using List.reverseRecOn with
  | nil => cases h
  | append_singleton log e ih =>
    have hbefore : t ∈ (ledger l log).writers → ∃ line, .wrote t l line ∈ log ++ [e] := fun h =>
      (ih h).imp fun _ => List.mem_append_left _
    rw [ledger_snoc] at h
    split at h
    · rename_i hl
      cases e with
      | wrote u k line =>
        obtain rfl : k = l := hl
        rcases List.mem_append.1 h with h | h
        · exact hbefore h
        · obtain rfl := List.mem_singleton.1 h
          exact ⟨line, List.mem_concat_self⟩
      | answered k bytes => exact hbefore h
      | ended u k o => cases o <;> exact hbefore h
    · exact hbefore h

theorem ledger_of_wrote (l : Nat) (log : List Event) (t : Ticket) (line : String) :
    ledger l (log ++ [.wrote t l line]) =
      { ledger l log with writers := (ledger l log).writers ++ [t], waiting := some t } := by
  rw [ledger_snoc]
  exact if_pos rfl

/-- The number of a line is that of its writer. -/
theorem writer_of_line {l : Nat} {log pre post : List Event} {t : Ticket} {line : String}
    (h : log = pre ++ .wrote t l line :: post) :
    (ledger l log).writers[(linesOn l pre).length]? = some t := by
  obtain ⟨rest, hrest⟩ := writers_prefix l (pre ++ [.wrote t l line]) post
  rw [List.append_assoc, List.singleton_append, ← h, ledger_of_wrote, List.append_assoc] at hrest
  rw [← hrest, ← length_writers_ledger, List.getElem?_append_right (Nat.le_refl _), Nat.sub_self]
  rfl

/-- As long as somebody waits, nobody writes and nothing is read. -/
theorem ledger_of_waiting {l : Nat} {pre mid : List Event} {t : Ticket}
    (h : (ledger l (pre ++ mid)).waiting = some t) (hmid : ∀ e ∈ mid, e.ticket? ≠ some t) :
    (ledger l (pre ++ mid)).writers = (ledger l pre).writers ∧
      (ledger l (pre ++ mid)).heard = (ledger l pre).heard := by
  induction mid using List.reverseRecOn with
  | nil =>
    rw [List.append_nil]
    exact ⟨rfl, rfl⟩
  | append_singleton mid e ih =>
    have he := hmid e (List.mem_concat_self)
    have hbefore := fun hw => ih hw fun x hx => hmid x (List.mem_append_left _ hx)
    rw [← List.append_assoc, ledger_snoc] at h ⊢
    split at h
    · rename_i hl
      rw [if_pos hl]
      cases e with
      -- somebody else would wait then
      | wrote u k line => exact absurd h he
      | answered k bytes => exact hbefore h
      | ended u k o => cases o <;> cases h
    · rename_i hl
      rw [if_neg hl]
      exact hbefore h

/-! ## Logs that are coherent -/

/-- Each thing can be seen after those before. -/
inductive Coherent (gone : Nat → Prop) : List Event → Prop where
  | nil : Coherent gone []
  | snoc {log : List Event} {e : Event} (h : Coherent gone log)
      (he : (ledger e.link log).Allows gone e) : Coherent gone (log ++ [e])

namespace Coherent

variable {gone : Nat → Prop} {log : List Event} {e : Event}

theorem mono {gone' : Nat → Prop} (h : Coherent gone log) (hg : ∀ c, gone c → gone' c) :
    Coherent gone' log := by
  induction h with
  | nil => exact .nil
  | @snoc log e _ he ih =>
    refine ih.snoc ?_
    cases e with
    | wrote t l line => exact ⟨he.1, fun u hu => hg _ (he.2 u hu)⟩
    | answered l bytes => exact he
    | ended t l o => cases o <;> exact he

theorem of_snoc (h : Coherent gone (log ++ [e])) :
    Coherent gone log ∧ (ledger e.link log).Allows gone e := by
  generalize hq : log ++ [e] = q at h
  cases h with
  | nil => simp at hq
  | snoc h he =>
    obtain ⟨rfl, hlast⟩ := List.append_inj' hq rfl
    obtain rfl := List.singleton_inj.1 hlast
    exact ⟨h, he⟩

/-- A log is coherent up to any point. -/
theorem of_append {xs ys : List Event} (h : Coherent gone (xs ++ ys)) : Coherent gone xs := by
  induction ys using List.reverseRecOn with
  | nil => rwa [List.append_nil] at h
  | append_singleton ys e ih =>
    rw [← List.append_assoc] at h
    exact ih h.of_snoc.1

/-- Everything in a log could be seen at its time. -/
theorem of_cons {xs ys : List Event} (h : Coherent gone (xs ++ e :: ys)) :
    Coherent gone xs ∧ (ledger e.link xs).Allows gone e := by
  rw [List.append_cons] at h
  exact h.of_append.of_snoc

theorem balanced (h : Coherent gone log) (l : Nat) : (ledger l log).Balanced gone := by
  induction h with
  | nil => exact Ledger.balanced_empty
  | @snoc log e _ he ih =>
    rw [ledger_snoc]
    split
    · rename_i hl
      subst hl
      exact ih.step he
    · exact ih

/-! ## What is read as a reply -/

variable {t : Ticket} {l : Nat} {line : String} {raw : Bytes} {pre mid post : List Event}

/-- What is read as the reply to a line is made of whole answers: of all that have arrived, from the
first that had not been read before the line was written. -/
theorem reply_of_exchange (h : Coherent gone log)
    (hlog : log = pre ++ .wrote t l line :: (mid ++ .ended t l (.ok raw) :: post))
    (hmid : ∀ e ∈ mid, e.ticket? ≠ some t) :
    ∃ upTo, (ledger l pre).heard < upTo ∧ upTo ≤ (linesOn l pre).length + 1 ∧
      upTo ≤ (answersOn l log).length ∧
      raw = ((answersOn l log).extract (ledger l pre).heard upTo).flatten := by
  have hcut : log = (pre ++ [.wrote t l line] ++ mid) ++ .ended t l (.ok raw) :: post := by
    rw [hlog, List.append_cons, List.append_assoc, List.append_assoc, List.append_assoc]
  rw [hcut] at h
  obtain ⟨hcoherent, hread⟩ := h.of_cons
  change (ledger l _).waiting = some t ∧ raw = (ledger l _).unread.flatten ∧ raw ≠ [] at hread
  obtain ⟨hwaits, hraw, hne⟩ := hread
  obtain ⟨hwriters, hheard⟩ := ledger_of_waiting hwaits hmid
  rw [ledger_of_wrote] at hwriters hheard
  have hfair := (hcoherent.balanced l).fair
  rw [hwriters, List.length_append, length_writers_ledger] at hfair
  have hlt := Ledger.heard_lt_of_flatten_ne (hraw ▸ hne)
  rw [hheard] at hlt
  -- the answers that had arrived by then are the first of all
  have hanswers : answersOn l log = (ledger l (pre ++ [.wrote t l line] ++ mid)).answers ++
      answersOn l (.ended t l (.ok raw) :: post) := by
    rw [hcut, answersOn_append, answers_ledger]
  refine ⟨_, hlt, hfair, ?_, ?_⟩
  · rw [hanswers, List.length_append]
    exact Nat.le_add_right ..
  · rw [hraw, Ledger.unread, hheard, hanswers, List.extract_eq_take_drop,
      List.drop_append_of_le_length (Nat.le_of_lt hlt), List.take_left' List.length_drop]

/-- That is the answer to the line itself, unless somebody who wrote before on the connection is
gone. -/
theorem answer_or_gone (h : Coherent gone log)
    (hlog : log = pre ++ .wrote t l line :: (mid ++ .ended t l (.ok raw) :: post))
    (hmid : ∀ e ∈ mid, e.ticket? ≠ some t) :
    (answersOn l log)[(linesOn l pre).length]? = some raw ∨
      ∃ u line, .wrote u l line ∈ pre ∧ gone u.call := by
  obtain ⟨upTo, hlt, hle, hlen, hraw⟩ := h.reply_of_exchange hlog hmid
  rw [hlog] at h
  obtain ⟨hcoherent, hwrites⟩ := h.of_cons
  rcases (hcoherent.balanced l).of_wrote hwrites with ⟨u, hu, hg⟩ | ⟨-, hheard⟩
  · obtain ⟨line, hline⟩ := mem_writers_ledger hu
    exact .inr ⟨u, line, hline, hg⟩
  · rw [length_writers_ledger] at hheard
    rw [hheard] at hlt hraw
    obtain rfl : upTo = (linesOn l pre).length + 1 := Nat.le_antisymm hle hlt
    left
    rw [List.getElem?_eq_getElem hlen, hraw, List.extract_eq_take_drop,
      List.drop_eq_getElem_cons hlen, Nat.add_sub_cancel_left, List.take_succ_cons, List.take_zero,
      List.flatten_singleton]

/-- Right after somebody who still waits, it begins with the answer to an earlier line. -/
theorem answer_of_waiting {u : Ticket} (h : Coherent gone log)
    (hlog : log = pre ++ .wrote t l line :: (mid ++ .ended t l (.ok raw) :: post))
    (hmid : ∀ e ∈ mid, e.ticket? ≠ some t) (hu : (ledger l pre).waiting = some u) :
    gone u.call ∧ ∃ i earlier, i < (linesOn l pre).length ∧
      (answersOn l log)[i]? = some earlier ∧ earlier <+: raw := by
  obtain ⟨upTo, hlt, -, hlen, hraw⟩ := h.reply_of_exchange hlog hmid
  rw [hlog] at h
  obtain ⟨hcoherent, hwrites⟩ := h.of_cons
  have hbehind := ((hcoherent.balanced l).waits u hu).2
  rw [length_writers_ledger] at hbehind
  have hfirst := Nat.lt_of_lt_of_le hlt hlen
  refine ⟨hwrites.2 u hu, _, _, hbehind, List.getElem?_eq_getElem hfirst, ?_⟩
  obtain ⟨n, hn⟩ : ∃ n, upTo - (ledger l pre).heard = n + 1 :=
    Nat.exists_eq_add_one_of_ne_zero (by omega)
  rw [hraw, List.extract_eq_take_drop, List.drop_eq_getElem_cons hfirst, hn, List.take_succ_cons,
    List.flatten_cons]
  exact List.prefix_append ..

end Coherent

end WorkerBroker
