import WorkerBroker.Proofs.Completion
import WorkerBroker.Proofs.Lcores
import WorkerBroker.Proofs.Sweeps
/-!
# The account of the lcores of all workers

A call that accounts for the lcores looks once who is registered (`Broker.eq_of_enumerates`) and
sends everybody a status query. An lcore is claimed in the call if one of them answers with a status
that claims it (`IsClaimedIn`); workers that are gone, report an error, or answer with a status in
which something is missing claim nothing. Whatever else happens meanwhile, and whoever is
unregistered in the course of the call, the lcores that are taken for claimed are these
(`accounted`). With what `Proofs.Lcores` says of layouts, the answer follows, and it comes at any
rate, since nobody is waited for longer than until the deadline (`Service.accounts_for_lcores`).
-/

namespace WorkerBroker

/-! ## What is asked and answered in a call -/

section

variable {ω : Type}

/-- In this move a call looks who is registered. -/
def Deed.Enumerates (d : Deed ω) (c : Nat) : Prop :=
  d.move = .run c ∧ ∃ next, d.before.phase? c = some (.running (.act .roster next))

/-- Who is registered, by ascending id. -/
def Broker.everyone (b : Broker ω) : List Ref := b.registry.map Prod.snd

/-- A member has turned to the status query of a ticket, and its worker has answered this, which is
no error. -/
def Ref.Answers (r : Ref) (past : List (Deed ω)) (t : Ticket) (status : Json) : Prop :=
  (∃ d ∈ past, d.TurnsTo r.number t .status) ∧
    ∃ l raw, .ended t l (.ok raw) ∈ log past ∧ decodeReply raw = .ok status

/-- In a call somebody claims an lcore: one of those who were registered when the call looked. -/
def IsClaimedIn (past : List (Deed ω)) (c : Nat) (l : UInt32) : Prop :=
  ∃ d ∈ past, d.Enumerates c ∧ ∃ (i : Nat) (r : Ref) (status : Json),
    d.before.everyone[i]? = some r ∧ r.Answers past ⟨c, i⟩ status ∧ status.Claims r.kind l

end

namespace Program

variable {refs : List Ref} {outcomes : List Outcome} {l : UInt32}

/-- What is claimed by the answers to status queries. -/
theorem isClaimed_probes :
    isClaimed ((probes refs outcomes).filterMap claimOf) l ↔
      ∃ (i : Nat) (r : Ref) (raw : Bytes) (status : Json), refs[i]? = some r ∧
        outcomes[i]? = some (.ok raw) ∧ decodeReply raw = .ok status ∧ status.Claims r.kind l := by
  rw [isClaimed_iff]
  constructor
  · rintro ⟨u, hu, hl⟩
    obtain ⟨p, hp, hclaim⟩ := List.mem_filterMap.1 hu
    obtain ⟨i, hi⟩ := List.getElem?_of_mem hp
    obtain ⟨r, o, hr, ho, rfl⟩ := getElem?_probes hi
    rcases o with s | raw
    · cases hclaim
    · rw [claimOf, judge] at hclaim
      split at hclaim
      · rename_i status hd
        exact ⟨i, r, raw, status, hr, ho, hd, Json.claims_iff.2 ⟨u, hclaim, hl⟩⟩
      · cases hclaim
  · rintro ⟨i, r, raw, status, hr, ho, hd, hclaims⟩
    obtain ⟨u, hu, hl⟩ := Json.claims_iff.1 hclaims
    refine ⟨u, List.mem_filterMap.2 ⟨(r, judge r .status (.ok raw)), ?_, ?_⟩, hl⟩
    · have hz : (refs.zip outcomes)[i]? = some (r, .ok raw) :=
        List.getElem?_zip_eq_some.2 ⟨hr, ho⟩
      exact List.mem_map.2 ⟨_, List.mem_of_getElem? hz, rfl⟩
    · rw [claimOf, judge, hd]
      exact hu

/-! ### One look at the registry -/

theorem within_unregisterDead (r : Ref) :
    (unregisterDead r).Within (· ≠ .roster) (fun _ => True) fun _ => True := by
  refine ⟨trivial, fun x => ?_⟩
  cases x with
  | true => exact ⟨nofun, fun _ => trivial⟩
  | false => trivial

theorem within_prune (ps : List Probe) :
    (prune ps).Within (· ≠ .roster) (fun _ => True) fun _ => True := by
  induction ps with
  | nil => trivial
  | cons p ps ih =>
    have hrest : ((prune ps).bind fun qs => done (p :: qs)).Within (· ≠ .roster) (fun _ => True)
        fun _ => True := ih.bind fun _ _ => trivial
    rw [prune]
    split
    · refine (within_unregisterDead p.1).bind fun x _ => ?_
      cases x with
      | true => exact ih
      | false => exact hrest
    · exact hrest

/-- What a call does that accounts for the lcores, once it knows who is registered. -/
def accountFor {ω : Type} (f : List Usage → ω) (refs : List Ref) : Program ω :=
  .wait (.converse (refs.map fun r => (r, .status))) fun outcomes =>
    (prune (probes refs outcomes)).bind fun ps => done (f (ps.filterMap claimOf))

theorem cpuUsage_map {ω : Type} (f : List Usage → ω) :
    (cpuUsage.bind fun us => done (f us)) = .act .roster (accountFor f) :=
  congrArg (Program.act .roster) (funext fun refs : List Ref => bind_assoc (sweep refs) _ _)

theorem within_accountFor {ω : Type} (f : List Usage → ω) (refs : List Ref) :
    (accountFor f refs).Within (· ≠ .roster) (fun _ => True) fun _ => True :=
  ⟨trivial, fun _ => (within_prune _).bind fun _ _ => trivial⟩

end Program

namespace Exchanged

variable {ω : Type} {past : List (Deed ω)} {t : Ticket} {n : Nat} {command : Command}
  {events : List Event} {o : Outcome}

/-- A command that is over has had its turn. -/
theorem turned (h : Exchanged past t n command events (.ended o)) :
    ∃ d ∈ past, d.TurnsTo n t command := by
  cases h with
  | @served p q d _ _ hd hturn =>
    rw [hd]
    exact ⟨d, List.mem_append_right _ List.mem_cons_self, hturn⟩

/-- A command has come to the reply that was read for it. -/
theorem logged_iff {raw : Bytes}
    (h : Exchanged past t n command (eventsOf t (log past)) (.ended o)) :
    (∃ l, .ended t l (.ok raw) ∈ log past) ↔ o = .ok raw := by
  rw [← h.heard_iff]
  simp [eventsOf, Event.ticket?]

end Exchanged

namespace Broker

open Program

variable {asked : Nat → Service} {timeout c : Nat} {past : List (Deed Upshot)}
  {b : Broker Upshot} {d e : Deed Upshot} {f : List Usage → Upshot}

/-- A call that looks who is registered is at its beginning. -/
theorem phase_of_enumerates (hr : Run (fun _ => Service.Starts asked) (fresh timeout) past b)
    (hP : (asked c).program = .act .roster (accountFor f)) (hd : d ∈ past) (hdc : d.Enumerates c) :
    d.before.phase? c = some (.running (.act .roster (accountFor f))) := by
  obtain ⟨-, next, hphase⟩ := hdc
  obtain ⟨past₁, past₂, rfl, hbefore, -⟩ := hr.cut hd
  obtain ⟨steps, q, hq, hpath, -⟩ := Service.path hbefore (left?_of_phase hphase)
  cases (left?_of_phase hphase).symm.trans hq
  rw [hP] at hpath
  cases hpath with
  | refl => exact hphase
  -- there is no other look later
  | act h => exact absurd rfl ((within_accountFor f _).leads h).1

/-- A call looks at one registry only. -/
theorem eq_of_enumerates (hr : Run (fun _ => Service.Starts asked) (fresh timeout) past b)
    (hP : (asked c).program = .act .roster (accountFor f)) (hd : d ∈ past) (he : e ∈ past)
    (hdc : d.Enumerates c) (hec : e.Enumerates c) : d = e :=
  hr.eq_of_act hd he hdc.1 (phase_of_enumerates hr hP hd hdc) hec.1
    (phase_of_enumerates hr hP he hec)

/-- A call that accounts for the lcores has asked everybody who was registered when it looked, and
takes for claimed what was claimed in answer. -/
theorem accounted {y : Upshot} (hr : Run (fun _ => Service.Starts asked) (fresh timeout) past b)
    (hP : (asked c).program = .act .roster (accountFor f))
    (hend : b.phase? c = some (.finished y)) :
    ∃ usage, y = f usage ∧ (∀ l, isClaimed usage l ↔ IsClaimedIn past c l) ∧
      ∃ d ∈ past, d.Enumerates c ∧ ∀ (i : Nat) r, d.before.everyone[i]? = some r →
        ∃ o, Exchanged past ⟨c, i⟩ r.number .status (eventsOf ⟨c, i⟩ (log past)) (.ended o) := by
  have hask : (asked c).program.AsksOnce := by
    rw [hP]
    exact ⟨rfl, fun _ _ => (mute_prune _).bind fun _ => trivial⟩
  obtain ⟨hnone, -⟩ | ⟨p, hp, hconv⟩ := Service.conversation hr hask
  · cases hend.symm.trans hnone
  obtain rfl := Option.some.inj (hend.symm.trans hp)
  rw [hP] at hconv
  cases hconv with
  | before hpath hsteps hleft _ _ =>
    cases hleft
    -- nobody comes to an end without having asked
    cases hpath with
    | act hpath =>
      cases hpath with
      | @wait w _ outcomes => exact absurd (hsteps (.wait _ outcomes) (by simp)).1 id
  | @answered _ _ commands next outcomes steps rest hpath hsteps h _ hrest _ hleft =>
    cases hleft
    cases hpath with
    | @act _ _ refs _ _ hpath =>
      obtain ⟨d, hd, hmove, hnext, hrefs⟩ := (hsteps (.act .roster refs) List.mem_cons_self).2
      obtain rfl : d.before.everyone = refs := hrefs
      cases hpath with
      | @wait w _ outcomes => exact absurd (hsteps (.wait _ outcomes) (by simp)).1 id
      | refl =>
        obtain ⟨qs, hprune, rfl⟩ := hrest.of_map_done
        have hasked : ∀ (i : Nat) r, d.before.everyone[i]? = some r → ∃ o, outcomes[i]? = some o ∧
            Exchanged past ⟨c, i⟩ r.number .status (eventsOf ⟨c, i⟩ (log past)) (.ended o) :=
          fun i r hr => h i r .status (by rw [List.getElem?_map, hr]; rfl)
        refine ⟨_, rfl, fun l => ?_, d, hd, ⟨hmove, hnext⟩, fun i r hr => ?_⟩
        · rw [claims_prune hprune, isClaimed_probes]
          constructor
          · rintro ⟨i, r, raw, status, hri, ho, hdecode, hclaims⟩
            obtain ⟨o, ho', hexchanged⟩ := hasked i r hri
            cases ho.symm.trans ho'
            obtain ⟨l', hl⟩ := hexchanged.logged_iff.2 rfl
            exact ⟨d, hd, ⟨hmove, hnext⟩, i, r, status, hri,
              ⟨hexchanged.turned, l', raw, hl, hdecode⟩, hclaims⟩
          · rintro ⟨e, he, hec, i, r, status, hri, ⟨-, l', raw, hl, hdecode⟩, hclaims⟩
            cases eq_of_enumerates hr hP hd he ⟨hmove, hnext⟩ hec
            obtain ⟨o, ho, hexchanged⟩ := hasked i r hri
            obtain rfl := hexchanged.logged_iff.1 ⟨l', hl⟩
            exact ⟨i, r, raw, status, hri, ho, hdecode, hclaims⟩
        · obtain ⟨o, -, hexchanged⟩ := hasked i r hr
          exact ⟨o, hexchanged⟩

end Broker

/-! ## What is left -/

/-- The lcores that are left, if that was asked for. -/
def Result.unused? : Result → Option (List UnusedLcores)
  | .unused us => some us
  | _ => none

theorem Result.eq_of_unused? : ∀ {x : Result} {us}, x.unused? = some us → x = .unused us
  | .unused _, _, rfl => rfl

namespace Service

open Broker Program

variable {layout : List Socket} {master : Option UInt32} {past : List (Deed Upshot)} {c : Nat}
  {us : List UnusedLcores}

/-- In a run of services a call was asked for the lcores of a layout that are left, and has come to
this. -/
def AccountsFor (layout : List Socket) (master : Option UInt32) (past : List (Deed Upshot))
    (c : Nat) (us : List UnusedLcores) : Prop :=
  ∃ asked timeout b, Run (fun _ => Starts asked) (fresh timeout) past b ∧
    asked c = .operation (.cpuUnused layout master) ∧ result? c b = some (.unused us)

/-- Everybody who was registered when a call looked was sent a status query, which came to its
end. -/
def HasAskedAll (past : List (Deed Upshot)) (c : Nat) : Prop :=
  ∃ d ∈ past, d.Enumerates c ∧ ∀ (i : Nat) r, d.before.everyone[i]? = some r →
    ∃ o, Exchanged past ⟨c, i⟩ r.number .status (eventsOf ⟨c, i⟩ (log past)) (.ended o)

theorem program_of_cpuUnused {asked : Nat → Service}
    (hc : asked c = .operation (.cpuUnused layout master)) :
    (asked c).program = .act .roster (accountFor fun usage =>
      .result (.unused (unusedLcores layout usage master))) := by
  rw [hc, ← cpuUsage_map]
  exact (bind_assoc _ _ _).trans (bind_assoc cpuUsage _ _)

/-- Of each socket of the layout there is left what nobody has claimed and what is above the
master. -/
theorem AccountsFor.leaves (h : AccountsFor layout master past c us) :
    HasAskedAll past c ∧
      List.Forall₂ (fun s u => s.Leaves (IsFree (IsClaimedIn past c) master) u) layout us := by
  obtain ⟨asked, timeout, b, hr, hc, hx⟩ := h
  obtain ⟨usage, hy, hclaimed, hasked⟩ :=
    accounted hr (program_of_cpuUnused hc) (phase?_of_result? hx)
  cases hy
  refine ⟨hasked, (leaves_unusedLcores layout usage master).imp fun s u hu => hu.congr fun l => ?_⟩
  simp only [IsFree, hclaimed]

/-- What is offered depends on nothing but the layout, the master, and which lcores were claimed; and
with a master it is what is offered without one, as far as it is above the master. -/
theorem AccountsFor.determined (h : AccountsFor layout master past c us) :
    (∀ {past' c' us'}, AccountsFor layout master past' c' us' →
      (∀ l, IsClaimedIn past c l ↔ IsClaimedIn past' c' l) → us = us') ∧
    ∀ {past' c' us' m}, AccountsFor layout none past' c' us' → master = some m →
      (∀ l, IsClaimedIn past c l ↔ IsClaimedIn past' c' l) →
      us = us'.map fun u => ⟨u.socket, u.lcores.filter (m < ·)⟩ := by
  obtain ⟨-, hleaves⟩ := h.leaves
  refine ⟨fun h' hsame => ?_, fun h' hm hsame => ?_⟩
  · refine eq_of_leaves hleaves (h'.leaves.2.imp fun s u hu => hu.congr fun l => ?_)
    simp only [IsFree, hsame]
  · refine eq_of_leaves hleaves ?_
    rw [List.forall₂_map_right_iff]
    refine h'.leaves.2.imp fun s u hu => (hu.above _).congr fun l => ?_
    simp [IsFree, hsame, hm]

/-- What an account of the lcores comes to is a list of those that are left. -/
theorem accountsFor_of_end {asked : Nat → Service} {timeout : Nat} {b : Broker Upshot} {y : Upshot}
    (hr : Run (fun _ => Starts asked) (fresh timeout) past b)
    (hc : asked c = .operation (.cpuUnused layout master))
    (hend : b.phase? c = some (.finished y)) :
    ∃ us, y = .result (.unused us) ∧ AccountsFor layout master past c us := by
  obtain ⟨usage, rfl, -⟩ := accounted hr (program_of_cpuUnused hc) hend
  exact ⟨_, rfl, asked, timeout, b, hr, hc, result?_of_phase hend⟩

/-- The lcores that are offered are those that nobody uses. The account comes to its end, whatever the
workers do, if only it is not given up. There is one entry for each socket of the layout, in its
order, and it shows the lcores of the socket that no worker has claimed in the call, and with a
master only those above it: ascending, and each as often as the layout lists it. Everybody who was
registered has been asked. So the answer depends on nothing but the layout, the master, and which
lcores were claimed; and with a master it is the answer without one, as far as it is above the
master. -/
theorem accounts_for_lcores {asked : Nat → Service} {timeout : Nat}
    (hc : asked c = .operation (.cpuUnused layout master)) :
    Yields asked (fresh timeout) c fun past _ y => ∃ us, y = .result (.unused us) ∧
      List.Forall₂ (fun s u => s.Leaves (IsFree (IsClaimedIn past c) master) u) layout us ∧
      HasAskedAll past c ∧
      (∀ {past' c' us'}, AccountsFor layout master past' c' us' →
        (∀ l, IsClaimedIn past c l ↔ IsClaimedIn past' c' l) → us = us') ∧
      ∀ {past' c' us' m}, AccountsFor layout none past' c' us' → master = some m →
        (∀ l, IsClaimedIn past c l ↔ IsClaimedIn past' c' l) →
        us = us'.map fun u => ⟨u.socket, u.lcores.filter (m < ·)⟩ := by
  refine yields .nil fun hr hend => ?_
  obtain ⟨us, rfl, h⟩ := accountsFor_of_end hr hc hend
  obtain ⟨hasked, hleaves⟩ := h.leaves
  exact ⟨us, rfl, hleaves, hasked, h.determined⟩

/-- A socket with two cores. -/
def twoCores : List Socket := [⟨0, [⟨0, [2, 3]⟩, ⟨1, [0, 1]⟩]⟩]

/-- A forwarder connects, and then the lcores are accounted for. -/
def accountAfterNfv : Nat → Service
  | 0 => .operation (.registerSecondary 0)
  | _ => .operation (.cpuUnused twoCores none)

/-- The forwarder answers when it is asked for its status. -/
def lcoresReported : List (Option (Move Upshot)) :=
  [some (.signal 0 (.bytes "\x7b\"master-lcore\":1,\"lcores\":[1,2]\x7d".toUTF8.toList)),
    some (.receive 1 0), some (.run 1)]

/-- If it claims the lcores 1 and 2, the others are left. If it is silent for ever, the account comes
to its end all the same, and shows whatever nobody has claimed. -/
theorem accounts_for_lcores_of_nfv :
    (∃ past us, AccountsFor twoCores none past 1 us ∧
      List.Forall₂ (fun s u => s.Leaves (IsFree (IsClaimedIn past 1) none) u) twoCores us) ∧
    ∃ past a, Run (fun _ => Starts accountAfterNfv) (fresh 5) past a ∧
      ∃ (h : Endless (Starts accountAfterNfv) a) (n : Nat) (us : List UnusedLcores),
        (h.state n).phase? 1 = some (.finished (.result (.unused us))) ∧
        List.Forall₂ (fun s u => s.Leaves (IsFree (IsClaimedIn (past ++ h.past n) 1) none) u)
          twoCores us := by
  have hyields : Yields accountAfterNfv (fresh 5) 1 _ := accounts_for_lcores rfl
  constructor
  · obtain ⟨past, b, hr, hx⟩ :
        ∃ past b, Run (fun _ => Starts accountAfterNfv) (fresh 5) past b ∧
          ((result? 1 b).bind Result.unused?).isSome :=
      exists_run_of_enact accountAfterNfv (nfvTold ++ lcoresReported) (by decide +kernel)
    obtain ⟨us, hus⟩ := Option.isSome_iff_exists.1 hx
    obtain ⟨x, hx, hxus⟩ := Option.bind_eq_some_iff.1 hus
    obtain rfl := Result.eq_of_unused? hxus
    obtain ⟨_, ⟨⟩, hleaves, -⟩ := hyields.tells hr (phase?_of_result? hx)
    exact ⟨past, us, ⟨accountAfterNfv, 5, b, hr, rfl, hx⟩, hleaves⟩
  · obtain ⟨past, a, ha, hgoes⟩ :
        ∃ past a, Run (fun _ => Starts accountAfterNfv) (fresh 5) past a ∧ (a.left? 1).isSome :=
      exists_run_of_enact accountAfterNfv nfvTold (by decide +kernel)
    obtain ⟨h, hs⟩ := exists_silent accountAfterNfv a
    obtain ⟨n, y, hy, us, rfl, hleaves, -⟩ :=
      hyields.comes ha hgoes hs.toIsFair (hs.kept 1)
    exact ⟨past, a, ha, h, n, us, hy, hleaves⟩

end Service

end WorkerBroker
