import WorkerBroker.Proofs.Views
/-!
# What a sweep is to one member

The listing and the account of the lcores ask many members at once and then go through the answers.
`View.IsSwept` says what all this is to one of them: it has met with the one status query for it,
and it is unregistered if it is a secondary that did not answer and has no connection. The chains of
`Proofs.Views` are evaluated for the programs of these reads (`chain_listing`, `chain_cpuUsage`),
and what they show of the member turns out to be a function of what its own worker has done
(`View.IsSwept.agree`). Who else was asked, and what came of it, is not part of it.
-/

namespace WorkerBroker

/-! ## Where somebody is in a list -/

section

variable {α : Type} {f : α → Bool} {l : List α} {x : α}

/-- Who is picked out alone has a place, and nobody at another place is picked out. -/
theorem only_of_filter (h : l.filter f = [x]) :
    ∃ k : Nat, l[k]? = some x ∧ ∀ (j : Nat) y, l[j]? = some y → f y → j = k := by
  induction l with
  | nil => cases h
  | cons y l ih =>
    by_cases hy : f y
    · rw [List.filter_cons_of_pos hy] at h
      obtain ⟨rfl, hnil⟩ := List.cons.inj h
      refine ⟨0, rfl, fun j z hj hz => ?_⟩
      cases j with
      | zero => rfl
      | succ j => exact absurd hz (List.filter_eq_nil_iff.1 hnil z (List.mem_of_getElem? hj))
    · rw [List.filter_cons_of_neg hy] at h
      obtain ⟨k, hk, ho⟩ := ih h
      refine ⟨k + 1, hk, fun j z hj hz => ?_⟩
      cases j with
      | zero =>
        cases hj
        exact absurd hz hy
      | succ j => exact congrArg (· + 1) (ho j z hj hz)

theorem filter_of_only {k : Nat} (hk : l[k]? = some x) (hx : f x)
    (ho : ∀ (j : Nat) y, l[j]? = some y → f y → j = k) : l.filter f = [x] := by
  induction l generalizing k with
  | nil => cases hk
  | cons y l ih =>
    cases k with
    | zero =>
      cases hk
      rw [List.filter_cons_of_pos hx, List.filter_eq_nil_iff.2]
      intro z hz hf
      obtain ⟨j, hj⟩ := List.getElem?_of_mem hz
      cases ho (j + 1) z hj hf
    | succ k =>
      have hy : ¬f y := fun hy => by cases ho 0 y rfl hy
      rw [List.filter_cons_of_neg hy]
      exact ih hk fun j z hj hz => Nat.succ.inj (ho (j + 1) z hj hz)

end

/-! ## Rosters -/

section

variable {r : Ref} {refs : List Ref}

theorem Shows.secondaries (h : Shows r (some r) refs) :
    Shows r (if r.kind.isSecondary then some r else none)
      (refs.filter fun q => q.kind.isSecondary) where
  found := by
    rw [List.filter_comm, h.found]
    by_cases hk : r.kind.isSecondary <;> simp [hk]
  same q hq := h.same q (List.mem_filter.1 hq).1
  proper q hq := h.proper q (List.mem_filter.1 hq).1

/-- Whoever is shown has one place among those who are shown. -/
theorem Shows.exists_only (h : Shows r (some r) refs) :
    ∃ k : Nat, refs[k]? = some r ∧ ∀ (j : Nat) q, refs[j]? = some q → q.id = r.id → j = k := by
  obtain ⟨k, hk, ho⟩ := only_of_filter h.found
  exact ⟨k, hk, fun j q hj hq => ho j q hj (decide_eq_true hq)⟩

theorem Shows.proper_self (h : Shows r (some r) refs) : r.kind = .primary ↔ r.id = primaryId := by
  have hr : r ∈ refs.filter fun q => q.id = r.id := h.found ▸ List.mem_singleton_self r
  exact h.proper r (List.mem_filter.1 hr).1

theorem Shows.ne_of_none (h : Shows r none refs) : ∀ q ∈ refs, q.number ≠ r.number := by
  intro q hq hn
  obtain rfl := h.same q hq hn
  exact List.filter_eq_nil_iff.1 h.found q hq (decide_eq_true rfl)

/-- A roster shows different members under different ids. -/
theorem clientId_iff {q : Ref} (hq : q.kind = .primary ↔ q.id = primaryId)
    (hr : r.kind = .primary ↔ r.id = primaryId) :
    (Entry.ofRef q).clientId = (Entry.ofRef r).clientId ↔ q.id = r.id := by
  have hsecondary : ∀ p : Ref, p.kind.isSecondary = true ↔ p.kind ≠ .primary := by
    intro p
    cases p.kind <;> decide
  by_cases hpq : q.kind = .primary
  · by_cases hpr : r.kind = .primary
    · simp [Entry.ofRef, hpq, hpr, hq.1 hpq, hr.1 hpr]
    · have hne : q.id ≠ r.id := fun he => hpr (hr.2 (he ▸ hq.1 hpq))
      simp [Entry.ofRef, hpq, hne, WorkerKind.isSecondary]
  · by_cases hpr : r.kind = .primary
    · have hne : q.id ≠ r.id := fun he => hpq (hq.2 (he ▸ hr.1 hpr))
      simp [Entry.ofRef, hpr, hne, WorkerKind.isSecondary]
    · simp [Entry.ofRef, (hsecondary r).2 hpr, (hsecondary q).2 hpq]

end

/-! ## Probes -/

namespace Program

/-- The answers to status queries, each with its member. -/
def probes (refs : List Ref) (outcomes : List Outcome) : List Probe :=
  (refs.zip outcomes).map fun (r, o) => (r, judge r .status o)

theorem listing_eq :
    listing = .act .roster fun refs =>
      (sweep (refs.filter fun r => r.kind.isSecondary)).bind fun _ =>
        .act .roster fun now => done (now.map Entry.ofRef) := rfl

theorem cpuUsage_eq :
    cpuUsage = .act .roster fun refs => (sweep refs).bind fun ps =>
      done (ps.filterMap claimOf) := rfl

theorem sweep_eq (refs : List Ref) :
    sweep refs = (converse (refs.map fun r => (r, .status))).bind fun outcomes =>
      prune (probes refs outcomes) := rfl

variable {r : Ref} {refs : List Ref} {outcomes : List Outcome}

theorem getElem?_probes {j : Nat} {p : Probe} (h : (probes refs outcomes)[j]? = some p) :
    ∃ q o, refs[j]? = some q ∧ outcomes[j]? = some o ∧ p = (q, judge q .status o) := by
  rw [probes, List.getElem?_map, Option.map_eq_some_iff] at h
  obtain ⟨⟨q, o⟩, hz, rfl⟩ := h
  obtain ⟨hq, ho⟩ := List.getElem?_zip_eq_some.1 hz
  exact ⟨q, o, hq, ho, rfl⟩

theorem mem_probes {p : Probe} (h : p ∈ probes refs outcomes) : p.1 ∈ refs := by
  obtain ⟨j, hj⟩ := List.getElem?_of_mem h
  obtain ⟨q, o, hq, -, rfl⟩ := getElem?_probes hj
  exact List.mem_of_getElem? hq

/-- Among the answers is one of a member that is shown. -/
theorem probes_of_only {k : Nat} {o : Outcome} (hk : refs[k]? = some r) (ho : outcomes[k]? = some o)
    (honly : ∀ (j : Nat) q, refs[j]? = some q → q.id = r.id → j = k) :
    (probes refs outcomes).filter (fun p => p.1.id = r.id) = [(r, judge r .status o)] := by
  refine filter_of_only (k := k) ?_ (decide_eq_true rfl) fun j p hj hp => ?_
  · have hz : (refs.zip outcomes)[k]? = some (r, o) := List.getElem?_zip_eq_some.2 ⟨hk, ho⟩
    rw [probes, List.getElem?_map, hz]
    rfl
  · obtain ⟨q, o', hq, -, rfl⟩ := getElem?_probes hj
    exact honly j q hq (of_decide_eq_true hp)

/-- Who is dead claims nothing. -/
theorem claimOf_of_isDead {p : Probe} (h : Probe.isDead p) : claimOf p = none := by
  obtain ⟨q, x⟩ := p
  cases x with
  | error e => rfl
  | ok status => cases h

/-- Going through the answers loses no claim. -/
theorem claims_prune {ps qs : List Probe} {steps : List Step}
    (hl : (prune ps).Leads steps (done qs)) : qs.filterMap claimOf = ps.filterMap claimOf := by
  induction ps generalizing steps qs with
  | nil =>
    obtain ⟨-, hqs⟩ := hl.of_done
    cases hqs
    rfl
  | cons p ps ih =>
    have hrest : ∀ {t : List Step}, ((prune ps).bind fun qs => done (p :: qs)).Leads t (done qs) →
        qs.filterMap claimOf = (p :: ps).filterMap claimOf := by
      intro t hl
      obtain ⟨t₁, qs', t₂, rfl, h₁, h₂⟩ := hl.of_bind
      obtain ⟨-, hqs⟩ := h₂.of_done
      cases hqs
      rw [List.filterMap_cons, List.filterMap_cons, ih h₁]
    simp only [Program.prune] at hl
    split at hl
    · rename_i hdead
      obtain ⟨s₁, x, s₂, rfl, h₁, h₂⟩ := hl.of_bind
      cases x with
      | true =>
        rw [List.filterMap_cons_none (claimOf_of_isDead hdead)]
        exact ih h₂
      | false => exact hrest h₂
    · exact hrest hl

/-- Who claims something is shown as in the listing. -/
theorem clientId_of_claimOf {p : Probe} {u : Usage} (h : claimOf p = some u) :
    u.clientId = (Entry.ofRef p.1).clientId := by
  obtain ⟨⟨n, kind, id⟩, x⟩ := p
  cases x with
  | error e => cases h
  | ok status =>
    simp only [claimOf] at h
    cases kind with
    | primary =>
      simp only [usageOf, primaryUsage?, Option.bind_eq_bind, Option.bind_eq_some_iff,
        Option.pure_def] at h
      obtain ⟨lcores, -, h⟩ := h
      split at h
      all_goals
        obtain ⟨master, -, hu⟩ := Option.bind_eq_some_iff.1 h
        cases hu
        rfl
    | nfv =>
      simp only [usageOf, forwarderUsage?, Option.bind_eq_bind, Option.bind_eq_some_iff,
        Option.pure_def] at h
      obtain ⟨_, -, _, -, hu⟩ := h
      cases hu
      rfl
    | vf | mirror | pcap =>
      simp only [usageOf, componentUsage?, Option.bind_eq_bind, Option.bind_eq_some_iff,
        Option.pure_def] at h
      obtain ⟨_, -, _, -, _, -, _, -, hu⟩ := h
      cases hu
      rfl

/-- What is claimed under the id of a member is what the answers under its id claim. -/
theorem filter_claims {ps : List Probe} (hr : r.kind = .primary ↔ r.id = primaryId)
    (hps : ∀ p ∈ ps, p.1.kind = .primary ↔ p.1.id = primaryId) :
    (ps.filterMap claimOf).filter (fun u => u.clientId = (Entry.ofRef r).clientId) =
      (ps.filter fun p => p.1.id = r.id).filterMap claimOf := by
  rw [List.filter_filterMap, List.filterMap_filter]
  refine List.filterMap_congr fun p hp => ?_
  rcases hc : claimOf p with _ | u
  · simp
  · have hiff := clientId_iff (hps p hp) hr
    rw [← clientId_of_claimOf hc] at hiff
    simp only [Option.filter_some, hiff]

end Program

/-! ## What a sweep does to the view of a member -/

/-- What it is to a member that a sweep goes through an answer: a member that did not answer is
unregistered, unless it has a connection. -/
def View.prune (r : Ref) (v : View) (p : Probe) : View :=
  if p.1 = r ∧ Probe.isDead p ∧ v.member.channel = none then
    { v with entry := none, member := { v.member with retired := true } }
  else v

/-- What a whole sweep is to a member that is asked: it has met with a status query, and the sweep
has gone through what came of it. -/
def View.IsSwept (r : Ref) (responds : Bool → Outcome → Prop) (v : View) (o : Outcome)
    (v' : View) : Prop :=
  ∃ u, v.Meets responds Command.status.line o u ∧ v' = u.prune r (r, Program.judge r .status o)

/-- A member is taken out of the registry, if it is the one registered under its id. -/
def View.strike (r : Ref) (v : View) : View :=
  { v with entry := if v.entry = some r then none else v.entry }

/-- A member is unregistered as dead, unless it has a connection. -/
def View.unregister (r : Ref) (v : View) : View :=
  if v.member.channel = none then
    { v.strike r with member := { v.member with retired := true } }
  else v

/-- Nobody is registered under the id of a member but the member. -/
abbrev View.IsOf (r : Ref) (v : View) : Prop :=
  ∀ q ∈ v.entry, q = r

section

open Program

variable {r : Ref} {responds : Bool → Outcome → Prop} {steps : List Step} {v v' : View}

theorem View.prune_of_ne {p : Probe} (h : p.1 ≠ r) : v.prune r p = v :=
  if_neg fun hp => h hp.1

theorem View.IsOf.prune (h : v.IsOf r) (p : Probe) : (v.prune r p).IsOf r := by
  rw [View.prune]
  split
  · exact nofun
  · exact h

/-- Once the member is struck off nobody is left. -/
theorem View.strike_of_isOf (h : v.IsOf r) : v.strike r = { v with entry := none } := by
  rw [View.strike]
  rcases hv : v.entry with _ | q
  · rfl
  · rw [h q hv, if_pos rfl]

/-- Going through the answers of others changes nothing. -/
theorem View.foldl_prune (ps : List Probe) :
    ps.foldl (View.prune r) v = (ps.filter fun p => p.1.id = r.id).foldl (View.prune r) v := by
  induction ps generalizing v with
  | nil => rfl
  | cons p ps ih =>
    by_cases hp : p.1.id = r.id
    · rw [List.filter_cons_of_pos (by simpa using hp)]
      exact ih
    · have hne : p.1 ≠ r := fun he => hp (congrArg Ref.id he)
      rw [List.filter_cons_of_neg (by simpa using hp), List.foldl_cons, View.prune_of_ne hne]
      exact ih

/-- A member without a connection is retired and struck off. -/
theorem chain_unregisterDead_self {x : Bool} (hl : (unregisterDead r).Leads steps (done x))
    (hc : Step.Chain (Step.Bears r responds) steps v v') : v' = v.unregister r := by
  cases hl with
  | @wait _ _ answer _ _ hl =>
    obtain ⟨u, hturn, hc⟩ := hc
    simp only [Step.Bears, if_true] at hturn
    cases answer with
    | false =>
      obtain ⟨rfl, -⟩ := hl.of_done
      obtain rfl : v' = u := hc
      obtain ⟨hch, rfl⟩ := hturn.2 rfl
      rw [View.unregister, if_neg hch]
    | true =>
      cases hl with
      | act hl =>
        obtain ⟨w, hstrike, hc⟩ := hc
        obtain ⟨rfl, -⟩ := hl.of_done
        obtain rfl : v' = w := hc
        obtain ⟨hch, rfl⟩ := hturn.1 rfl
        simp only [Step.Bears, true_and] at hstrike
        rw [hstrike, View.unregister, if_pos hch, View.strike]

/-- A dead member is retired and unregistered, unless it has a connection. -/
theorem chain_unregisterDead {q : Ref} {x : Bool} (hl : (unregisterDead q).Leads steps (done x))
    (hc : Step.Chain (Step.Bears r responds) steps v v') (hv : v.IsOf r)
    (hsame : q.number = r.number → q = r) :
    v' = if q = r ∧ v.member.channel = none then
      { v with entry := none, member := { v.member with retired := true } } else v := by
  by_cases hq : q = r
  · subst hq
    rw [chain_unregisterDead_self hl hc, View.unregister, View.strike_of_isOf hv]
    simp only [true_and]
  · have hn : q.number ≠ r.number := fun hn => hq (hsame hn)
    rw [if_neg fun h => hq h.1]
    cases hl with
    | @wait _ _ answer _ _ hl =>
      obtain ⟨u, hturn, hc⟩ := hc
      simp only [Step.Bears, if_neg hn] at hturn
      subst hturn
      cases answer with
      | false =>
        obtain ⟨rfl, -⟩ := hl.of_done
        exact hc
      | true =>
        cases hl with
        | act hl =>
          obtain ⟨w, hstrike, hc⟩ := hc
          obtain ⟨rfl, -⟩ := hl.of_done
          obtain rfl : v' = w := hc
          simp only [Step.Bears] at hstrike
          have hother : ¬(q.id = r.id ∧ u.entry = some q) := fun h => hq (hv q h.2)
          rw [hstrike, if_neg hother]

/-- Going through the answers changes the view one by one. -/
theorem chain_prune {ps qs : List Probe} (hl : (prune ps).Leads steps (done qs))
    (hc : Step.Chain (Step.Bears r responds) steps v v') (hv : v.IsOf r)
    (hsame : ∀ p ∈ ps, p.1.number = r.number → p.1 = r) : v' = ps.foldl (View.prune r) v := by
  induction ps generalizing steps v qs with
  | nil =>
    obtain ⟨rfl, -⟩ := hl.of_done
    exact hc
  | cons p ps ih =>
    have hsame' : ∀ p' ∈ ps, p'.1.number = r.number → p'.1 = r := fun p' hp' =>
      hsame p' (List.mem_cons_of_mem _ hp')
    -- the answer stays, and the others are gone through
    have hrest : ∀ {t : List Step} {u : View}, u.IsOf r →
        ((prune ps).bind fun qs => done (p :: qs)).Leads t (done qs) →
        Step.Chain (Step.Bears r responds) t u v' → v' = ps.foldl (View.prune r) u := by
      intro t u hu hl hc
      obtain ⟨t₁, qs', t₂, rfl, h₁, h₂⟩ := hl.of_bind
      obtain ⟨rfl, -⟩ := h₂.of_done
      rw [List.append_nil] at hc
      exact ih h₁ hc hu hsame'
    rw [List.foldl_cons]
    simp only [Program.prune] at hl
    split at hl
    · rename_i hdead
      obtain ⟨s₁, x, s₂, rfl, h₁, h₂⟩ := hl.of_bind
      obtain ⟨u, hu, hc⟩ := hc.of_append
      have hprune : u = v.prune r p := by
        rw [chain_unregisterDead h₁ hu hv (hsame p List.mem_cons_self), View.prune]
        simp only [hdead, true_and]
      subst hprune
      cases x with
      | true => exact ih h₂ hc (hv.prune p) hsame'
      | false => exact hrest (hv.prune p) h₂ hc
    · rename_i halive
      have hprune : v.prune r p = v := if_neg fun h => halive h.2.1
      rw [hprune]
      exact hrest hv hl hc

variable {refs : List Ref} {qs : List Probe}

/-- A sweep over others changes nothing. -/
theorem chain_sweep_others (hl : (sweep refs).Leads steps (done qs))
    (hc : Step.Chain (Step.Bears r responds) steps v v') (hv : v.IsOf r) (hs : Shows r none refs) :
    v' = v := by
  rw [sweep_eq] at hl
  cases hl with
  | @wait _ _ outcomes _ _ hl =>
    obtain ⟨u, hu, hc⟩ := hc
    obtain rfl : u = v := hu.1 fun q hq => by
      obtain ⟨p, hp, rfl⟩ := List.mem_map.1 hq
      exact hs.ne_of_none p hp
    have hview := chain_prune hl hc hv fun p hp => hs.same p.1 (mem_probes hp)
    have hnone : ((probes refs outcomes).filter fun p => p.1.id = r.id) = [] :=
      List.filter_eq_nil_iff.2 fun p hp =>
        List.filter_eq_nil_iff.1 hs.found p.1 (mem_probes hp)
    rw [hview, View.foldl_prune, hnone]
    rfl

/-- A sweep asks each member once, and only what comes of that query matters to the member. -/
theorem chain_sweep (hl : (sweep refs).Leads steps (done qs))
    (hc : Step.Chain (Step.Bears r responds) steps v v') (hv : v.entry = some r)
    (hs : Shows r (some r) refs) :
    ∃ o, v.IsSwept r responds o v' ∧
      (qs.filterMap claimOf).filter (fun u => u.clientId = (Entry.ofRef r).clientId) =
        (claimOf (r, judge r .status o)).toList := by
  obtain ⟨k, hk, honly⟩ := hs.exists_only
  rw [sweep_eq] at hl
  cases hl with
  | @wait _ _ outcomes _ _ hl =>
    obtain ⟨u, hu, hc⟩ := hc
    have hplace : IsOnly ((refs.map fun r => (r, Command.status)).map Prod.fst) r k := by
      rw [List.map_map]
      refine ⟨(congrArg (·[k]?) (List.map_id refs)).trans hk, fun j q hj hn => ?_⟩
      have hq : refs[j]? = some q := (congrArg (·[j]?) (List.map_id refs)).symm.trans hj
      obtain rfl := hs.same q (List.mem_of_getElem? hq) hn
      exact honly j q hq rfl
    obtain ⟨command, o, hcommand, ho, hmeets⟩ := hu.2 k hplace
    rw [List.getElem?_map, hk] at hcommand
    cases hcommand
    have hof : u.IsOf r := by
      obtain ⟨-, -, hentry, -⟩ := hmeets
      rw [View.IsOf, hentry, hv]
      exact fun q hq => (Option.some.inj hq).symm
    have hview := chain_prune hl hc hof fun p hp => hs.same p.1 (mem_probes hp)
    have hone := probes_of_only hk ho honly
    refine ⟨o, ⟨u, hmeets, ?_⟩, ?_⟩
    · rw [hview, View.foldl_prune, hone]
      rfl
    · rw [claims_prune hl]
      refine (filter_claims hs.proper_self fun p hp => hs.proper p.1 (mem_probes hp)).trans ?_
      rw [hone]
      rcases hc : claimOf (r, judge r .status o) with _ | u <;> simp [hc]

/-! ### The two reads -/

/-- What a result tells of a member. -/
def Result.about (r : Ref) : Result → Result
  | .entries es => .entries (es.filter fun e => e.clientId = (Entry.ofRef r).clientId)
  | .usages us => .usages (us.filter fun u => u.clientId = (Entry.ofRef r).clientId)
  | x => x

/-- What a roster tells of a member is whether it is registered. -/
theorem Shows.about {entry : Option Ref} (hs : Shows r entry refs)
    (hr : r.kind = .primary ↔ r.id = primaryId) :
    (Result.entries (refs.map Entry.ofRef)).about r = .entries (entry.toList.map Entry.ofRef) := by
  rw [Result.about, List.filter_map, ← hs.found]
  refine congrArg (fun l : List Ref => Result.entries (l.map Entry.ofRef)) ?_
  refine List.filter_congr fun q hq => ?_
  exact decide_eq_decide.2 (clientId_iff (hs.proper q hq) hr)

/-- The listing asks each secondary, and shows who is registered afterwards. -/
theorem chain_listing {x : Result} (hl : Operation.listing.program.Leads steps (done x))
    (hc : Step.Chain (Step.Bears r responds) steps v v') (hv : v.entry = some r) :
    x.about r = .entries (v'.entry.toList.map Entry.ofRef) ∧
      if r.kind.isSecondary then ∃ o, v.IsSwept r responds o v' else v' = v := by
  obtain ⟨es, hs, rfl⟩ := hl.of_map_done
  rw [listing_eq] at hs
  cases hs with
  | @act _ _ refs _ _ hs =>
    obtain ⟨u, ⟨rfl, hshows⟩, hc⟩ := hc
    rw [hv] at hshows
    obtain ⟨s₁, qs, s₂, rfl, hsweep, hs⟩ := hs.of_bind
    obtain ⟨w, hw, hc⟩ := hc.of_append
    cases hs with
    | @act _ _ now _ _ hs =>
      obtain ⟨w', ⟨rfl, hnow⟩, hc⟩ := hc
      obtain ⟨rfl, hes⟩ := hs.of_done
      cases hes
      obtain rfl : v' = w' := hc
      refine ⟨hnow.about hshows.proper_self, ?_⟩
      have hsecondaries := hshows.secondaries
      split
      · rename_i hk
        rw [if_pos hk] at hsecondaries
        obtain ⟨o, hswept, -⟩ := chain_sweep hsweep hw hv hsecondaries
        exact ⟨o, hswept⟩
      · rename_i hk
        rw [if_neg hk] at hsecondaries
        exact chain_sweep_others hsweep hw (fun q hq => by simpa [hv] using hq.symm) hsecondaries

/-- The account of the lcores asks everybody, and shows what each one claims. -/
theorem chain_cpuUsage {x : Result} (hl : Operation.cpuUsage.program.Leads steps (done x))
    (hc : Step.Chain (Step.Bears r responds) steps v v') (hv : v.entry = some r) :
    ∃ o, v.IsSwept r responds o v' ∧
      x.about r = .usages (claimOf (r, judge r .status o)).toList := by
  obtain ⟨us, hs, rfl⟩ := hl.of_map_done
  rw [cpuUsage_eq] at hs
  cases hs with
  | @act _ _ refs _ _ hs =>
    obtain ⟨u, ⟨rfl, hshows⟩, hc⟩ := hc
    rw [hv] at hshows
    obtain ⟨qs, hsweep, rfl⟩ := hs.of_map_done
    obtain ⟨o, hswept, hclaims⟩ := chain_sweep hsweep hc hv hshows
    exact ⟨o, hswept, congrArg Result.usages hclaims⟩

/-! ### The same worker -/

/-- Two outcomes are the same, or both are no reply. -/
def Outcome.Alike (o o' : Outcome) : Prop :=
  o = o' ∨ ∃ s s', o = .error s ∧ o' = .error s'

variable {responds' : Bool → Outcome → Prop} {o o' : Outcome} {w w' : View}

/-- What comes of a command is up to the worker. -/
theorem Encounter.agree {line : String} {m m₁ m₂ : Member} {lines₁ lines₂ : List (Nat × String)}
    (h : Encounter responds line m o m₁ lines₁) (h' : Encounter responds' line m o' m₂ lines₂)
    (hsame : ∀ w o w' o', responds w o → responds' w' o' → w = w' ∧ o = o') :
    m₁ = m₂ ∧ lines₁ = lines₂ ∧ Outcome.Alike o o' := by
  cases h with
  | refused hno s =>
    cases h' with
    | refused _ s' => exact ⟨rfl, rfl, .inr ⟨s, s', rfl, rfl⟩⟩
    | broken hu _ | replied hu _ | failed hu _ => exact absurd hu (hno _)
  | @broken l hu hw =>
    cases h' with
    | refused hno _ => exact absurd hu (hno l)
    | broken _ hw' => exact ⟨rfl, rfl, .inl rfl⟩
    | replied _ hw' | failed _ hw' => cases (hsame _ _ _ _ hw hw').1
  | @replied l raw hu hw =>
    cases h' with
    | refused hno _ => exact absurd hu (hno l)
    | broken _ hw' | failed _ hw' => cases (hsame _ _ _ _ hw hw').2
    | replied hu' hw' =>
      cases hu.symm.trans hu'
      exact ⟨rfl, rfl, .inl (hsame _ _ _ _ hw hw').2⟩
  | @failed l s hu hw =>
    cases h' with
    | refused hno _ => exact absurd hu (hno l)
    | broken _ hw' => cases (hsame _ _ _ _ hw hw').1
    | replied _ hw' => cases (hsame _ _ _ _ hw hw').2
    | failed hu' hw' =>
      cases hu.symm.trans hu'
      exact ⟨rfl, rfl, .inl (hsame _ _ _ _ hw hw').2⟩

/-- Which silence it was makes no difference to a sweep. -/
theorem Outcome.Alike.judge (h : Outcome.Alike o o') :
    Probe.isDead (r, Program.judge r .status o) = Probe.isDead (r, Program.judge r .status o') ∧
      claimOf (r, Program.judge r .status o) = claimOf (r, Program.judge r .status o') := by
  obtain rfl | ⟨s, s', rfl, rfl⟩ := h
  · exact ⟨rfl, rfl⟩
  · exact ⟨rfl, rfl⟩

/-- What a sweep is to a member is up to its worker. -/
theorem View.IsSwept.agree (h : v.IsSwept r responds o w) (h' : v.IsSwept r responds' o' w')
    (hsame : ∀ w o w' o', responds w o → responds' w' o' → w = w' ∧ o = o') :
    w = w' ∧ claimOf (r, judge r .status o) = claimOf (r, judge r .status o') := by
  obtain ⟨⟨entry, m, lines⟩, ⟨wrote, henc, rfl, rfl⟩, rfl⟩ := h
  obtain ⟨⟨entry', m', lines'⟩, ⟨wrote', henc', rfl, rfl⟩, rfl⟩ := h'
  obtain ⟨rfl, rfl, halike⟩ := henc.agree henc' hsame
  obtain ⟨hdead, hclaim⟩ := halike.judge (r := r)
  refine ⟨?_, hclaim⟩
  simp only [View.prune, hdead]

end

end WorkerBroker
