/-!
# Tables

A table is a list of keys with values in strictly ascending order of the keys. `Table.put` keeps
that order and lets the last value for a key win. The registry of workers is a table by worker
id, and a JSON object is a table by member name. Each operation is pinned down by what it does
to `Table.find?`.
-/

namespace WorkerBroker

/-- Keys with values. -/
abbrev Table (κ α : Type) := List (κ × α)

namespace Table

variable {κ α : Type}

/-- The keys, in order. -/
def keys (t : Table κ α) : List κ :=
  t.map Prod.fst

/-- Strictly ascending keys. -/
def Ascending [LT κ] (t : Table κ α) : Prop :=
  t.Pairwise fun a b => a.1 < b.1

/-- The value under a key. -/
def find? [DecidableEq κ] (k : κ) : Table κ α → Option α
  | [] => none
  | (k', v) :: t => if k = k' then some v else find? k t

/-- Whether there is a value under a key. -/
def has [DecidableEq κ] (k : κ) (t : Table κ α) : Bool :=
  (find? k t).isSome

/-- Put a value under a key, in the place of one that is there. -/
def put [LT κ] [DecidableRel (α := κ) (· < ·)] [DecidableEq κ] (k : κ) (v : α) :
    Table κ α → Table κ α
  | [] => [(k, v)]
  | (k', v') :: t =>
    if k < k' then (k, v) :: (k', v') :: t
    else if k = k' then (k, v) :: t
    else (k', v') :: put k v t

/-- Take a key out. -/
def remove [DecidableEq κ] (k : κ) (t : Table κ α) : Table κ α :=
  t.filter fun e => e.1 ≠ k

/-- The table of a list of pairs; of two values for one key the later one wins. -/
def ofList [LT κ] [DecidableRel (α := κ) (· < ·)] [DecidableEq κ] (l : List (κ × α)) :
    Table κ α :=
  l.foldl (fun t e => put e.1 e.2 t) []

/-! ## What the operations do to the view -/

@[simp] theorem find?_nil [DecidableEq κ] (k : κ) : find? k ([] : Table κ α) = none := rfl

theorem find?_put [LT κ] [DecidableRel (α := κ) (· < ·)] [DecidableEq κ] (k j : κ) (v : α)
    (t : Table κ α) : find? j (put k v t) = if j = k then some v else find? j t := by
  induction t with
  | nil => simp [put, find?]
  | cons e t ih =>
    obtain ⟨k', v'⟩ := e
    simp only [put]
    split
    · simp [find?]
    · split
      · rename_i h
        subst h
        by_cases hj : j = k <;> simp [find?, hj]
      · rename_i hk
        by_cases hj : j = k'
        · subst hj
          simp [find?, show ¬j = k from fun h => hk h.symm]
        · simp [find?, hj, ih]

theorem find?_remove [DecidableEq κ] (k j : κ) (t : Table κ α) :
    find? j (remove k t) = if j = k then none else find? j t := by
  induction t with
  | nil => simp [remove]
  | cons e t ih =>
    obtain ⟨k', v'⟩ := e
    simp only [remove] at ih
    by_cases hk : k' = k
    · subst hk
      by_cases hj : j = k' <;> simp_all [remove, find?]
    · by_cases hj : j = k'
      · subst hj
        simp [remove, find?, hk]
      · by_cases hjk : j = k <;> simp_all [remove, find?]

/-- The keys after a value was put: the new one and those that were there. -/
theorem mem_keys_put [LT κ] [DecidableRel (α := κ) (· < ·)] [DecidableEq κ] {k j : κ} {v : α}
    {t : Table κ α} : j ∈ keys (put k v t) ↔ j = k ∨ j ∈ keys t := by
  induction t with
  | nil => simp [put, keys]
  | cons e t ih =>
    simp only [keys, put, List.map_cons, List.mem_cons] at ih ⊢
    split
    · simp
    · split
      · rename_i h
        simp [h]
      · simp only [List.map_cons, List.mem_cons, ih]
        exact or_left_comm

/-- Putting a value keeps the order. -/
theorem Ascending.put [LT κ] [DecidableRel (α := κ) (· < ·)] [DecidableEq κ]
    [Trans (α := κ) (· < ·) (· < ·) (· < ·)] [Std.Trichotomous (α := κ) (· < ·)]
    {t : Table κ α} (h : Ascending t) (k : κ) (v : α) : Ascending (Table.put k v t) := by
  induction t with
  | nil => simp [Ascending, Table.put]
  | cons e t ih =>
    obtain ⟨above, rest⟩ := List.pairwise_cons.1 h
    simp only [Table.put]
    split
    · rename_i lt
      refine List.pairwise_cons.2 ⟨fun f hf => ?_, h⟩
      rcases List.mem_cons.1 hf with rfl | hf
      · exact lt
      · exact Trans.trans lt (above f hf)
    · split
      · rename_i same
        exact List.pairwise_cons.2 ⟨fun f hf => same ▸ above f hf, rest⟩
      · rename_i notLt notSame
        have lt : e.1 < k :=
          (Std.Trichotomous.rel_or_eq_or_rel_swap (r := (· < ·)) (a := e.1) (b := k)).elim id
            fun other => other.elim (fun same => absurd same.symm notSame) fun lt => absurd lt notLt
        refine List.pairwise_cons.2 ⟨fun f hf => ?_, ih rest⟩
        rcases mem_keys_put.1 (List.mem_map.2 ⟨f, hf, rfl⟩) with same | hf
        · exact same ▸ lt
        · obtain ⟨g, hg, same⟩ := List.mem_map.1 hf
          exact same ▸ above g hg

/-- In a table in order each pair is the one that is found under its key. -/
theorem Ascending.find?_eq_some [LT κ] [DecidableEq κ] [Std.Irrefl (α := κ) (· < ·)]
    {t : Table κ α} (h : Ascending t) {e : κ × α} (he : e ∈ t) : find? e.1 t = some e.2 := by
  induction t with
  | nil => cases he
  | cons f t ih =>
    obtain ⟨above, rest⟩ := List.pairwise_cons.1 h
    rcases List.mem_cons.1 he with rfl | he
    · simp [find?]
    · have ne : e.1 ≠ f.1 := fun same => Std.Irrefl.irrefl (r := (· < ·)) e.1 (same ▸ above e he)
      simp [find?, ne, ih rest he]

theorem mem_of_find? [DecidableEq κ] {t : Table κ α} {k : κ} {v : α}
    (h : find? k t = some v) : (k, v) ∈ t := by
  induction t with
  | nil => cases h
  | cons f t ih =>
    obtain ⟨k', v'⟩ := f
    simp only [find?] at h
    split at h
    · rename_i same
      cases h
      subst same
      exact List.mem_cons_self
    · exact List.mem_cons_of_mem _ (ih h)

/-- Taking a key out keeps the order. -/
theorem Ascending.remove [LT κ] [DecidableEq κ] {t : Table κ α} (h : Ascending t) (k : κ) :
    Ascending (Table.remove k t) :=
  List.Pairwise.filter _ h

end Table

end WorkerBroker
