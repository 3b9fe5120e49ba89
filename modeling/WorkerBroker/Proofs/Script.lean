import WorkerBroker.Proofs.Operation
/-!
# Runs that are written down

A script tells line by line what happens. `play` acts it out and checks that everything in it is
possible and allowed; what can be played is a run (`Broker.Run.of_play`). So to have a run in which
something happens, it is enough to compute (`Broker.exists_run_of_play`).
-/

namespace WorkerBroker

/-- A line of a script. -/
inductive Cue where
  /-- the next call is started -/
  | call
  | move (m : Move Result)

namespace Broker

/-! ## What can be computed -/

instance {ω : Type} (b : Broker ω) (r : Ref) : Decidable (b.Knows r) :=
  inferInstanceAs (Decidable ((∃ e ∈ b.registry, e.2 = r) ∨ ∃ call ∈ b.calls, r ∈ call.refs))

instance {ω : Type} (b : Broker ω) (l : Nat) : Decidable (b.IsFree l) :=
  inferInstanceAs (Decidable (_ ∧ _ ∧ (∀ m ∈ b.members, _) ∧ ∀ call ∈ b.calls, _))

instance (op : Operation) (b : Broker Result) : Decidable (op.Admits b) :=
  inferInstanceAs (Decidable ((∀ r ∈ op.refs, b.Knows r) ∧ ∀ l ∈ op.brings, b.IsFree l))

/-- What a call has come to, if it is over. -/
def result? (c : Nat) (b : Broker Result) : Option Result :=
  b.calls[c]?.bind Call.result?

theorem phase?_of_result? {b : Broker Result} {c : Nat} {x : Result} (h : b.result? c = some x) :
    b.phase? c = some (.finished x) := by
  obtain ⟨call, hc, hx⟩ := Option.bind_eq_some_iff.1 h
  rw [Call.result?] at hx
  split at hx
  · rename_i y hy
    cases hx
    rw [phase?, hc, Option.map_some, hy]
  · cases hx

/-! ## Scripts -/

end Broker

/-- The move that a line of a script stands for. -/
def Cue.move? (asked : Nat → Operation) (b : Broker Result) : Cue → Option (Move Result)
  | .call =>
    if (asked b.calls.length).Admits b then
      some (.start (asked b.calls.length).program (asked b.calls.length).refs
        (asked b.calls.length).brings)
    else none
  | .move (.start _ _ _) => none
  | .move m => some m

theorem Cue.starts_of_move? {asked : Nat → Operation} {b : Broker Result} {m : Move Result}
    {cue : Cue} (h : cue.move? asked b = some m) : Operation.Starts asked b m := by
  cases cue with
  | call =>
    rw [move?] at h
    split at h
    · cases h
      exact ⟨‹_›, rfl, rfl, rfl⟩
    · cases h
  | move m => cases m <;> cases h <;> trivial

/-- Act out a script after what has happened: what has happened then, and what it has led to. -/
def play (asked : Nat → Operation) (may : List (Deed Result) → Move Result → Prop)
    [∀ past m, Decidable (may past m)] :
    List Cue → List (Deed Result) → Broker Result → Option (List (Deed Result) × Broker Result)
  | [], past, b => some (past, b)
  | cue :: script, past, b =>
    match cue.move? asked b with
    | none => none
    | some m =>
      if may past m then
        match b.step m with
        | none => none
        | some c => play asked may script (past ++ [⟨b, m⟩]) c
      else none

namespace Broker

variable {asked : Nat → Operation} {may : List (Deed Result) → Move Result → Prop}
  {allowed : List (Deed Result) → Broker Result → Move Result → Prop}

/-- A script that can be played continues the run before it. -/
theorem Run.of_play [∀ past m, Decidable (may past m)] {a b b' : Broker Result}
    {past past' : List (Deed Result)} {script : List Cue}
    (hall : ∀ past b m, Operation.Starts asked b m → may past m → allowed past b m)
    (hr : Run allowed a past b) (h : play asked may script past b = some (past', b')) :
    Run allowed a past' b' := by
  induction script generalizing past b with
  | nil =>
    cases h
    exact hr
  | cons cue script ih =>
    rw [play] at h
    split at h
    · cases h
    · rename_i m hm
      split at h
      · rename_i hmay
        split at h
        · cases h
        · rename_i c hc
          exact ih (.snoc m hr (hall _ _ _ (Cue.starts_of_move? hm) hmay) hc) h
      · cases h

/-- To have a run, play a script. -/
theorem exists_run_of_play (may : List (Deed Result) → Move Result → Prop)
    [∀ past m, Decidable (may past m)] (script : List Cue) {timeout : Nat}
    {P : List (Deed Result) → Broker Result → Prop} [∀ past b, Decidable (P past b)]
    (hall : ∀ past b m, Operation.Starts asked b m → may past m → allowed past b m)
    (h : (play asked may script [] (fresh timeout)).any (fun s => P s.1 s.2)) :
    ∃ past b, Run allowed (fresh timeout) past b ∧ P past b := by
  obtain ⟨⟨past, b⟩, hs, hp⟩ := (Option.any_eq_true _ _).1 h
  exact ⟨past, b, .of_play hall .nil hs, by simpa using hp⟩

end Broker

/-! ## A worker to tell about -/

/-- What a worker of kind `nfv` and id 1 answers when it is asked who it is. -/
def nfvAnswer : Bytes := "[\"nfv\",1]".toUTF8.toList

/-- It connects for the first time, and a member is made for it. -/
def nfvConnects : List Cue :=
  [.move .accept, .call, .move (.run 0), .move (.signal 0 (.bytes nfvAnswer)), .move (.hear 0),
    .move (.run 0), .move (.run 0), .move (.run 0)]

end WorkerBroker
