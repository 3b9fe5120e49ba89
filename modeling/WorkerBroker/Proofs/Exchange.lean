import WorkerBroker.Proofs.Log
/-!
# One exchange after the other

What can be seen on one connection, if all is well, is a line, then the answer to it, then that the
answer was read, and so on. Once an exchange has ended without a reply, no line follows. `Wire` is
the automaton for this, and `Wire.after` runs it over a log. Here it is shown what it means that a
log is accepted: lines are not written while another is waiting for its answer
(`Wire.reply_between`), no line is written after an exchange that failed (`Wire.no_line_after`), and
what is read as the reply to a line is the answer with its number (`Wire.reply_of_exchange`).

That the logs of the broker are accepted is shown in `Proofs.Commands`.
-/

namespace WorkerBroker

namespace Event

/-- The connection that something is seen on. -/
def link : Event → Nat
  | wrote _ l _ | answered l _ | ended _ l _ => l

/-- The line that is written. -/
def line? : Event → Option String
  | wrote _ _ line => some line
  | _ => none

/-- The answer that arrives. -/
def answer? : Event → Option Bytes
  | answered _ bytes => some bytes
  | _ => none

/-- Whose exchange something belongs to. -/
def ticket? : Event → Option Ticket
  | wrote t _ _ | ended t _ _ => some t
  | answered _ _ => none

end Event

/-- The lines that were written on a connection. -/
def linesOn (l : Nat) (log : List Event) : List String :=
  (log.filter fun e => e.link = l).filterMap Event.line?

/-- What a worker has sent on a connection. -/
def answersOn (l : Nat) (log : List Event) : List Bytes :=
  (log.filter fun e => e.link = l).filterMap Event.answer?

theorem linesOn_append (l : Nat) (xs ys : List Event) :
    linesOn l (xs ++ ys) = linesOn l xs ++ linesOn l ys := by
  simp only [linesOn, List.filter_append, List.filterMap_append]

theorem answersOn_append (l : Nat) (xs ys : List Event) :
    answersOn l (xs ++ ys) = answersOn l xs ++ answersOn l ys := by
  simp only [answersOn, List.filter_append, List.filterMap_append]

theorem linesOn_cons (l : Nat) (e : Event) (log : List Event) :
    linesOn l (e :: log) = (if e.link = l then e.line?.toList else []) ++ linesOn l log := by
  by_cases h : e.link = l
  · rcases hl : e.line? with _ | line <;> simp [linesOn, h, hl]
  · simp [linesOn, h]

theorem answersOn_cons (l : Nat) (e : Event) (log : List Event) :
    answersOn l (e :: log) = (if e.link = l then e.answer?.toList else []) ++ answersOn l log := by
  by_cases h : e.link = l
  · rcases ha : e.answer? with _ | bytes <;> simp [answersOn, h, ha]
  · simp [answersOn, h]

/-! ## The automaton -/

/-- How far an exchange on a connection is. -/
inductive Wire where
  | idle
  /-- a line has been written -/
  | waiting (ticket : Ticket)
  /-- the answer has arrived, and has not been read -/
  | answered (ticket : Ticket) (bytes : Bytes)
  /-- an exchange has ended without a reply -/
  | dead
  deriving DecidableEq

namespace Wire

/-- What may be seen on the connection. -/
def on : Wire → Event → Option Wire
  | idle, .wrote t _ _ => some (waiting t)
  | idle, .ended _ _ (.error _) => some dead
  | waiting t, .answered _ bytes => some (answered t bytes)
  | waiting t, .ended u _ (.error _) => if u = t then some dead else none
  | answered t bytes, .ended u _ (.ok raw) => if u = t ∧ raw = bytes then some idle else none
  | answered t _, .ended u _ (.error _) => if u = t then some dead else none
  | dead, .answered _ _ => some dead
  | _, _ => none

/-- Something is seen, maybe on another connection. -/
def next (l : Nat) (e : Event) (w : Wire) : Option Wire :=
  if e.link = l then w.on e else some w

/-- What a log leads to, if it is accepted. -/
def after (l : Nat) : List Event → Wire → Option Wire
  | [], w => some w
  | e :: log, w => (w.next l e).bind (after l log)

variable {l : Nat} {w w' : Wire} {t : Ticket}

theorem next_self {e : Event} (h : e.link = l) : w.next l e = w.on e := if_pos h

theorem next_ne {e : Event} (h : e.link ≠ l) : w.next l e = some w := if_neg h

theorem after_append (xs ys : List Event) :
    w.after l (xs ++ ys) = (w.after l xs).bind (after l ys) := by
  induction xs generalizing w with
  | nil => rfl
  | cons e xs ih =>
    rw [List.cons_append, after, after]
    rcases w.next l e with _ | w₁
    · rfl
    · exact ih

/-- The log is accepted up to any point. -/
theorem after_append_eq_some {xs ys : List Event} (h : w.after l (xs ++ ys) = some w') :
    ∃ w₁, w.after l xs = some w₁ ∧ w₁.after l ys = some w' := by
  rw [after_append] at h
  exact Option.bind_eq_some_iff.1 h

theorem after_cons_eq_some {e : Event} {log : List Event} (h : w.after l (e :: log) = some w') :
    ∃ w₁, w.next l e = some w₁ ∧ w₁.after l log = some w' :=
  Option.bind_eq_some_iff.1 h

/-! ## What is accepted -/

/-- A line is written only if there is nothing to wait for. -/
theorem next_wrote {line : String} (h : w.next l (.wrote t l line) = some w') :
    w = idle ∧ w' = waiting t := by
  rw [next_self (l := l) (e := .wrote t l line) rfl] at h
  cases w <;> cases h
  exact ⟨rfl, rfl⟩

/-- After an exchange without a reply nothing is ever written. -/
theorem no_line_of_dead {log : List Event} (h : dead.after l log = some w) :
    w = dead ∧ linesOn l log = [] := by
  induction log with
  | nil =>
    cases h
    exact ⟨rfl, rfl⟩
  | cons e log ih =>
    obtain ⟨w₁, h₁, h⟩ := after_cons_eq_some h
    rw [next] at h₁
    rw [linesOn_cons]
    split at h₁
    · rename_i hl
      rw [if_pos hl]
      cases e with
      | answered l' bytes =>
        cases h₁
        exact ih h
      | wrote _ _ _ | ended _ _ _ => cases h₁
    · rename_i hl
      cases h₁
      rw [if_neg hl]
      exact ih h

/-- No line is written on a connection after an exchange on it has failed. -/
theorem no_line_after {pre post : List Event} {s : Silence}
    (h : w.after l (pre ++ .ended t l (.error s) :: post) = some w') : linesOn l post = [] := by
  obtain ⟨w₁, -, h⟩ := after_append_eq_some h
  obtain ⟨w₂, h₂, h⟩ := after_cons_eq_some h
  rw [next_self (l := l) (e := .ended t l (.error s)) rfl] at h₂
  have hdead : w₂ = dead := by
    cases w₁ <;> simp only [on] at h₂
    · exact (Option.some.inj h₂).symm
    · split at h₂
      · exact (Option.some.inj h₂).symm
      · cases h₂
    · split at h₂
      · exact (Option.some.inj h₂).symm
      · cases h₂
    · cases h₂
  subst hdead
  exact (no_line_of_dead h).2

/-- Whether an exchange of that ticket is going on. -/
def Concerns (w : Wire) (t : Ticket) : Prop :=
  w = waiting t ∨ ∃ bytes, w = answered t bytes

/-- An exchange goes on until it ends. -/
theorem concerns_of_next {e : Event} (hw : w.Concerns t) (h : w.next l e = some w') :
    w'.Concerns t ∨ w' = dead ∨ ∃ raw, e = .ended t l (.ok raw) := by
  rw [next] at h
  split at h
  · rename_i hl
    rcases hw with rfl | ⟨bytes, rfl⟩
    · cases e with
      | wrote _ _ _ => cases h
      | answered _ bytes =>
        cases h
        exact .inl (.inr ⟨bytes, rfl⟩)
      | ended u _ o =>
        cases o with
        | ok raw => cases h
        | error s =>
          simp only [on] at h
          split at h <;> cases h
          exact .inr (.inl rfl)
    · cases e with
      | wrote _ _ _ | answered _ _ => cases h
      | ended u l' o =>
        obtain rfl : l' = l := hl
        cases o with
        | ok raw =>
          simp only [on] at h
          split at h
          · rename_i hu
            exact .inr (.inr ⟨raw, by rw [hu.1]⟩)
          · cases h
        | error s =>
          simp only [on] at h
          split at h <;> cases h
          exact .inr (.inl rfl)
  · cases h
    exact .inl hw

/-- If a connection is idle again, its exchange has ended with a reply. -/
theorem reply_of_idle {log : List Event} (hw : w.Concerns t) (h : w.after l log = some idle) :
    ∃ raw, .ended t l (.ok raw) ∈ log := by
  induction log generalizing w with
  | nil =>
    cases h
    rcases hw with hw | ⟨bytes, hw⟩ <;> cases hw
  | cons e log ih =>
    obtain ⟨w₁, h₁, h⟩ := after_cons_eq_some h
    rcases concerns_of_next hw h₁ with hw₁ | rfl | ⟨raw, rfl⟩
    · obtain ⟨raw, hr⟩ := ih hw₁ h
      exact ⟨raw, List.mem_cons_of_mem _ hr⟩
    · cases (no_line_of_dead h).1
    · exact ⟨raw, List.mem_cons_self⟩

/-- Between two lines on a connection the reply to the first has been read. -/
theorem reply_between {u : Ticket} {line line' : String} {pre mid post : List Event}
    (h : w.after l (pre ++ .wrote t l line :: (mid ++ .wrote u l line' :: post)) = some w') :
    ∃ raw, .ended t l (.ok raw) ∈ mid := by
  obtain ⟨w₁, -, h⟩ := after_append_eq_some h
  obtain ⟨w₂, h₂, h⟩ := after_cons_eq_some h
  obtain ⟨-, rfl⟩ := next_wrote h₂
  obtain ⟨w₃, h₃, h⟩ := after_append_eq_some h
  obtain ⟨w₄, h₄, -⟩ := after_cons_eq_some h
  obtain ⟨rfl, -⟩ := next_wrote h₄
  exact reply_of_idle (.inl rfl) h₃

/-! ## Answers and their numbers -/

/-- How many answers are still to come. -/
def owed : Wire → Nat
  | waiting _ => 1
  | _ => 0

/-- The answer that has arrived. -/
def pending : Wire → List Bytes
  | answered _ bytes => [bytes]
  | _ => []

theorem owed_next {e : Event} (h : w.next l e = some w') (hw' : w' ≠ dead) :
    (linesOn l [e]).length + w.owed = (answersOn l [e]).length + w'.owed := by
  rw [linesOn_cons, answersOn_cons]
  by_cases hl : e.link = l
  · rw [next_self hl] at h
    rw [if_pos hl, if_pos hl]
    cases e with
    | wrote _ _ _ =>
      cases w <;> cases h
      rfl
    | answered _ _ =>
      cases w <;> cases h
      · rfl
      · exact absurd rfl hw'
    | ended u _ o =>
      cases w <;> cases o <;> simp only [on] at h
      all_goals first | cases h | split at h
      all_goals first | cases h | skip
      all_goals first | exact absurd rfl hw' | rfl
  · rw [next_ne hl] at h
    cases h
    rw [if_neg hl, if_neg hl]
    rfl

/-- As long as nothing has failed, there are as many answers as lines, but for one that is still to
come. -/
theorem length_linesOn {log : List Event} (h : w.after l log = some w') (hw' : w' ≠ dead) :
    (linesOn l log).length + w.owed = (answersOn l log).length + w'.owed := by
  induction log generalizing w with
  | nil =>
    cases h
    rfl
  | cons e log ih =>
    obtain ⟨w₁, h₁, h⟩ := after_cons_eq_some h
    have hw₁ : w₁ ≠ dead := by
      rintro rfl
      exact hw' (no_line_of_dead h).1
    have hstep := owed_next h₁ hw₁
    have hrest := ih h
    rw [← List.singleton_append, linesOn_append, answersOn_append, List.length_append,
      List.length_append]
    omega

/-- While an exchange goes on, its answer is all that arrives. -/
theorem pending_after {log : List Event} (hw : w.Concerns t) (h : w.after l log = some w')
    (hw' : w'.Concerns t) (hlog : ∀ e ∈ log, e.ticket? ≠ some t) :
    w.pending ++ answersOn l log = w'.pending := by
  induction log generalizing w with
  | nil =>
    cases h
    exact List.append_nil _
  | cons e log ih =>
    obtain ⟨w₁, h₁, h⟩ := after_cons_eq_some h
    have he := hlog e List.mem_cons_self
    have hw₁ : w₁.Concerns t := by
      rcases concerns_of_next hw h₁ with hw₁ | rfl | ⟨raw, rfl⟩
      · exact hw₁
      · obtain ⟨rfl, -⟩ := no_line_of_dead h
        rcases hw' with hw' | ⟨bytes, hw'⟩ <;> cases hw'
      · exact absurd rfl he
    rw [← ih hw₁ h fun e he => hlog e (List.mem_cons_of_mem _ he), answersOn_cons,
      ← List.append_assoc]
    congr 1
    by_cases hl : e.link = l
    · rw [next_self hl] at h₁
      rw [if_pos hl]
      rcases hw with rfl | ⟨bytes, rfl⟩
      · cases e with
        | answered _ bytes =>
          cases h₁
          rfl
        | wrote _ _ _ => cases h₁
        | ended u _ o =>
          cases o <;> simp only [on] at h₁
          · split at h₁ <;> cases h₁
            rcases hw₁ with e | ⟨_, e⟩ <;> cases e
          · cases h₁
      · cases e with
        | answered _ _ | wrote _ _ _ => cases h₁
        | ended u _ o =>
          cases o <;> simp only [on] at h₁ <;> split at h₁ <;> cases h₁ <;>
            rcases hw₁ with e | ⟨_, e⟩ <;> cases e
    · rw [next_ne hl] at h₁
      cases h₁
      rw [if_neg hl, List.append_nil]

/-- What is read as the reply to a line is the answer with its number: as many answers came before
it as lines were written before the line. -/
theorem reply_of_exchange {line : String} {raw : Bytes} {pre mid post : List Event}
    (h : idle.after l (pre ++ .wrote t l line :: (mid ++ .ended t l (.ok raw) :: post)) = some w')
    (hmid : ∀ e ∈ mid, e.ticket? ≠ some t) :
    (answersOn l (pre ++ .wrote t l line :: (mid ++ .ended t l (.ok raw) :: post)))[
      (linesOn l pre).length]? = some raw := by
  obtain ⟨w₁, h₁, h⟩ := after_append_eq_some h
  obtain ⟨w₂, h₂, h⟩ := after_cons_eq_some h
  obtain ⟨rfl, rfl⟩ := next_wrote h₂
  obtain ⟨w₃, h₃, h⟩ := after_append_eq_some h
  obtain ⟨w₄, h₄, -⟩ := after_cons_eq_some h
  have hw₃ : w₃ = answered t raw := by
    rw [next_self (l := l) (e := .ended t l (.ok raw)) rfl] at h₄
    cases w₃ <;> simp only [on] at h₄
    · cases h₄
    · cases h₄
    · split at h₄
      · rename_i hu
        rw [hu.1, hu.2]
      · cases h₄
    · cases h₄
  subst hw₃
  have hpre := length_linesOn h₁ (by nofun)
  have hanswer : answersOn l mid = [raw] := pending_after (.inl rfl) h₃ (.inr ⟨raw, rfl⟩) hmid
  have hnil : answersOn l [.wrote t l line] = [] := by simp [answersOn, Event.answer?]
  rw [← List.singleton_append, answersOn_append, answersOn_append, answersOn_append, hnil, hanswer,
    List.nil_append, show (linesOn l pre).length = (answersOn l pre).length from hpre,
    List.getElem?_append_right (Nat.le_refl _), Nat.sub_self]
  rfl

end Wire

end WorkerBroker
