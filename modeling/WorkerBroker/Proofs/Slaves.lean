import Mathlib.Data.List.Perm.Basic
import Mathlib.Data.List.Sort
import WorkerBroker.Lcore.Helper
import WorkerBroker.Proofs.Accounting
import WorkerBroker.Proofs.FileTrees
/-!
# Lcores for the slaves of a master

Who asks for the lcores that are left above a master is also told which of them its slaves may have.
Without a count that is meant to be all of them, ascending and each once (`IsAllOf`). The slaves are
picked from the lcores without their repetitions, and the count that is put in for the missing one
is that of the lcores with them. So all are offered if no lcore is shown twice, and none is offered
otherwise (`offeredSlaves_eq`).

Picking goes by what is shown and not by where: it picks the lowest lcores above the master that
are shown at all, if there are enough of them (`pickSlaves_picks`).

An lcore is shown as often as the layout lists it. A layout that is read from a file tree has one
place for each cpu and lists none twice (`nodup_sysfsLayout`); one that a helper prints may list an
lcore in several cores (`Service.slaves_of_repeated_lcore`).
-/

namespace WorkerBroker

/-! ## Each lcore once -/

theorem eraseReps_loop (a : UInt32) (ls found : List UInt32) :
    List.eraseRepsBy.loop (· == ·) a ls found = found.reverse ++ (a :: ls).eraseReps := by
  induction ls generalizing a found with
  | nil => simp [List.eraseReps, List.eraseRepsBy, List.eraseRepsBy.loop]
  | cons b ls ih =>
    by_cases hab : a = b
    · subst hab
      simp only [List.eraseReps, List.eraseRepsBy, List.eraseRepsBy.loop, BEq.rfl]
      exact ih a found
    · have hne : (a == b) = false := beq_eq_false_iff_ne.2 hab
      simp only [List.eraseReps, List.eraseRepsBy, List.eraseRepsBy.loop, hne]
      rw [ih, ih, List.reverse_cons, List.reverse_singleton, List.append_assoc]

theorem eraseReps_cons_cons (a b : UInt32) (ls : List UInt32) :
    (a :: b :: ls).eraseReps =
      if a = b then (b :: ls).eraseReps else a :: (b :: ls).eraseReps := by
  split
  · rename_i hab
    subst hab
    simp [List.eraseReps, List.eraseRepsBy, List.eraseRepsBy.loop]
  · rename_i hab
    have hne : (a == b) = false := beq_eq_false_iff_ne.2 hab
    refine Eq.trans ?_ (eraseReps_loop b ls [a])
    simp only [List.eraseReps, List.eraseRepsBy, List.eraseRepsBy.loop, hne]

theorem mem_eraseReps {l : UInt32} : ∀ {ls : List UInt32}, l ∈ ls.eraseReps ↔ l ∈ ls
  | [] => Iff.rfl
  | [a] => Iff.rfl
  | a :: b :: ls => by
    have ih : l ∈ (b :: ls).eraseReps ↔ l ∈ b :: ls := mem_eraseReps
    rw [eraseReps_cons_cons]
    split
    · rename_i hab
      subst hab
      simpa using ih
    · rw [List.mem_cons, ih, ← List.mem_cons]

/-- Of an ascending list each lcore is kept once. -/
theorem pairwise_eraseReps :
    ∀ {ls : List UInt32}, ls.Pairwise (· ≤ ·) → ls.eraseReps.Pairwise (· < ·)
  | [], _ => .nil
  | [a], _ => List.pairwise_singleton _ a
  | a :: b :: ls, h => by
    obtain ⟨ha, hls⟩ := List.pairwise_cons.1 h
    rw [eraseReps_cons_cons]
    split
    · exact pairwise_eraseReps hls
    · rename_i hab
      refine List.pairwise_cons.2 ⟨fun l hl => ?_, pairwise_eraseReps hls⟩
      obtain ⟨hb, -⟩ := List.pairwise_cons.1 hls
      have hbl : b ≤ l := by
        rcases List.mem_cons.1 (mem_eraseReps.1 hl) with rfl | hl
        · exact UInt32.le_refl _
        · exact hb l hl
      have hlt : a < b := UInt32.lt_of_le_of_ne (ha b List.mem_cons_self) hab
      exact UInt32.lt_of_lt_of_le hlt hbl

/-! ## Picking -/

/-- Lcores are all that sockets show, ascending and each once. -/
def IsAllOf (ls : List UInt32) (unused : List UnusedLcores) : Prop :=
  ls.Pairwise (· < ·) ∧ ∀ l, l ∈ ls ↔ ∃ u ∈ unused, l ∈ u.lcores

section

variable {unused : List UnusedLcores} {master l : UInt32}

theorem pairwise_eligible : (eligible unused master).Pairwise (· < ·) :=
  pairwise_eraseReps (pairwise_mergeSort_lcores _)

theorem mem_eligible : l ∈ eligible unused master ↔ (∃ u ∈ unused, l ∈ u.lcores) ∧ master < l := by
  rw [eligible, mem_eraseReps, (List.mergeSort_perm _ _).mem_iff, List.mem_filter, List.mem_flatMap]
  simp

/-- What is eligible is all that is shown, if all of it is above the master. -/
theorem isAllOf_eligible (h : ∀ u ∈ unused, ∀ l ∈ u.lcores, master < l) :
    IsAllOf (eligible unused master) unused := by
  refine ⟨pairwise_eligible, fun l => mem_eligible.trans ⟨And.left, fun hl => ⟨hl, ?_⟩⟩⟩
  obtain ⟨u, hu, hl⟩ := hl
  exact h u hu l hl

theorem eligible_perm (h : ∀ u ∈ unused, ∀ l ∈ u.lcores, master < l) :
    (eligible unused master).Perm (unused.flatMap UnusedLcores.lcores).dedup := by
  have hnodup : (eligible unused master).Nodup := pairwise_eligible.imp UInt32.ne_of_lt
  refine (List.perm_ext_iff_of_nodup hnodup (List.nodup_dedup _)).2 fun l => ?_
  rw [(isAllOf_eligible h).2, List.mem_dedup, List.mem_flatMap]

/-- As many lcores are eligible as are shown just if none is shown twice. -/
theorem length_le_eligible_iff (h : ∀ u ∈ unused, ∀ l ∈ u.lcores, master < l) :
    (unused.flatMap UnusedLcores.lcores).length ≤ (eligible unused master).length ↔
      (unused.flatMap UnusedLcores.lcores).Nodup := by
  rw [(eligible_perm h).length_eq, ← List.dedup_eq_self]
  constructor
  · exact (List.dedup_sublist _).eq_of_length_le
  · intro hall
    rw [hall]

/-- Without a count all lcores are offered if none is shown twice, and otherwise none is. -/
theorem offeredSlaves_eq (h : ∀ u ∈ unused, ∀ l ∈ u.lcores, master < l) :
    Gateway.offeredSlaves unused ⟨some master, none⟩ =
      some (if (unused.flatMap UnusedLcores.lcores).Nodup then eligible unused master else []) := by
  have hle : (eligible unused master).length ≤ (unused.flatMap UnusedLcores.lcores).length := by
    rw [(eligible_perm h).length_eq]
    exact (List.dedup_sublist _).length_le
  simp only [Gateway.offeredSlaves, Option.map_some, Option.getD_none, pickSlaves,
    length_le_eligible_iff h]
  split
  · rw [Option.getD_some, List.take_of_length_le hle]
  · rfl

/-- What is offered is all that is shown just if no lcore is shown twice. -/
theorem isAllOf_offered_iff (h : ∀ u ∈ unused, ∀ l ∈ u.lcores, master < l) {slaves : List UInt32}
    (hs : Gateway.offeredSlaves unused ⟨some master, none⟩ = some slaves) :
    IsAllOf slaves unused ↔ (unused.flatMap UnusedLcores.lcores).Nodup := by
  rw [offeredSlaves_eq h, Option.some.injEq] at hs
  split at hs
  · rename_i hall
    exact iff_of_true (hs ▸ isAllOf_eligible h) hall
  · rename_i hrepeats
    refine iff_of_false (fun ⟨_, hmem⟩ => hrepeats ?_) hrepeats
    have hnone : unused.flatMap UnusedLcores.lcores = [] := by
      refine List.eq_nil_iff_forall_not_mem.2 fun l hl => ?_
      have hl' := (hmem l).2 (List.mem_flatMap.1 hl)
      rw [← hs] at hl'
      cases hl'
    rw [hnone]
    exact List.nodup_nil

end

/-! ## The lowest lcores -/

section

variable {unused : List UnusedLcores} {master l : UInt32} {count : Nat} {ls ls' : List UInt32}

/-- An lcore that may be picked: some socket shows it, and it is above the master. -/
def IsEligible (unused : List UnusedLcores) (master l : UInt32) : Prop :=
  (∃ u ∈ unused, l ∈ u.lcores) ∧ master < l

/-- The lowest lcores that may be picked, so many of them, ascending and each once. -/
structure IsPick (unused : List UnusedLcores) (master : UInt32) (count : Nat) (ls : List UInt32) :
    Prop where
  length : ls.length = count
  ascending : ls.Pairwise (· < ·)
  eligible : ∀ l ∈ ls, IsEligible unused master l
  lowest : ∀ l, IsEligible unused master l → l ∉ ls → ∀ l' ∈ ls, l' < l

/-- If one pick has an lcore that another one lacks, then it has all that the other one has, and
they are not of one length. -/
theorem IsPick.subset (h : IsPick unused master count ls) (h' : IsPick unused master count ls') :
    ls ⊆ ls' := by
  intro l hl
  by_contra hnot
  have hback : ls' ⊆ ls := by
    intro l' hl'
    by_contra hnot'
    have hlt : l' < l := h'.lowest l (h.eligible l hl) hnot l' hl'
    exact UInt32.lt_asymm hlt (h.lowest l' (h'.eligible l' hl') hnot' l hl)
  have hmore : l :: ls' ⊆ ls := List.cons_subset.2 ⟨hl, hback⟩
  have hnodup : (l :: ls').Nodup := List.nodup_cons.2 ⟨hnot, h'.ascending.nodup⟩
  have hle := (List.subperm_of_subset hnodup hmore).length_le
  rw [List.length_cons, h.length, h'.length] at hle
  omega

/-- There is one pick only. -/
theorem IsPick.eq (h : IsPick unused master count ls) (h' : IsPick unused master count ls') :
    ls = ls' :=
  h.ascending.eq_of_mem_iff h'.ascending fun _ => ⟨(h.subset h' ·), (h'.subset h ·)⟩

/-- The first lcores of those that are eligible are the lowest. -/
theorem isPick_take (h : count ≤ (eligible unused master).length) :
    IsPick unused master count ((eligible unused master).take count) where
  length := List.length_take_of_le h
  ascending := pairwise_eligible.take
  eligible l hl := mem_eligible.1 (List.mem_of_mem_take hl)
  lowest l hl hnot l' hl' := by
    have hcut := List.take_append_drop count (WorkerBroker.eligible unused master)
    have hdrop : l ∈ (WorkerBroker.eligible unused master).drop count := by
      have hmem := mem_eligible.2 hl
      rw [← hcut] at hmem
      exact (List.mem_append.1 hmem).resolve_left hnot
    have hsplit : (WorkerBroker.eligible unused master).Pairwise (· < ·) := pairwise_eligible
    rw [← hcut] at hsplit
    exact (List.pairwise_append.1 hsplit).2.2 l' hl' l hdrop

/-- There are no more lcores that may be picked than are eligible. -/
theorem length_le_of_isEligible (hnodup : ls.Nodup) (h : ∀ l ∈ ls, IsEligible unused master l) :
    ls.length ≤ (eligible unused master).length :=
  (List.subperm_of_subset hnodup fun l hl => mem_eligible.2 (h l hl)).length_le

theorem pickSlaves_eq_some_iff : pickSlaves unused master count = some ls ↔
    IsPick unused master count ls := by
  rw [pickSlaves]
  constructor
  · intro h
    split at h
    · rename_i hle
      cases h
      exact isPick_take hle
    · cases h
  · intro h
    have hle := length_le_of_isEligible h.ascending.nodup h.eligible
    rw [h.length] at hle
    rw [if_pos hle, h.eq (isPick_take hle)]

theorem isSome_pickSlaves_iff : (pickSlaves unused master count).isSome ↔
    count ≤ (eligible unused master).length := by
  rw [pickSlaves]
  split
  · rename_i hle
    exact iff_of_true rfl hle
  · rename_i hfew
    exact iff_of_false Bool.false_ne_true hfew

/-- What a master's slaves may be is the same if the lcores that are not above it are shown too. -/
theorem eligible_unusedLcores (layout : List Socket) (usage : List Usage) (master : UInt32) :
    eligible (unusedLcores layout usage (some master)) master =
      eligible (unusedLcores layout usage none) master := by
  refine pairwise_eligible.eq_of_mem_iff pairwise_eligible fun l => ?_
  rw [mem_eligible, mem_eligible]
  refine and_congr_left fun habove => ?_
  simp [unusedLcores, isAbove, habove]

/-- Slaves are picked if so many different lcores above the master are shown, and then the lowest of
them are. Whether lcores up to the master are shown does not matter. -/
theorem pickSlaves_picks (unused : List UnusedLcores) (master : UInt32) (count : Nat) :
    ((pickSlaves unused master count).isSome ↔
      ∃ ls : List UInt32, ls.Nodup ∧ ls.length = count ∧ ∀ l ∈ ls, IsEligible unused master l) ∧
    (∀ ls, pickSlaves unused master count = some ls ↔ IsPick unused master count ls) ∧
    ∀ layout usage, pickSlaves (unusedLcores layout usage (some master)) master count =
      pickSlaves (unusedLcores layout usage none) master count := by
  refine ⟨?_, fun ls => pickSlaves_eq_some_iff, fun layout usage => ?_⟩
  · rw [isSome_pickSlaves_iff]
    constructor
    · intro hle
      have h := isPick_take hle
      exact ⟨_, h.ascending.nodup, h.length, h.eligible⟩
    · rintro ⟨ls, hnodup, rfl, h⟩
      exact length_le_of_isEligible hnodup h
  · rw [pickSlaves, pickSlaves, eligible_unusedLcores]

end

/-! ## What is shown of a layout -/

/-- No lcore is shown twice that is not listed twice. -/
theorem nodup_unusedLcores {layout : List Socket} (h : (listedLcores layout).Nodup)
    (usage : List Usage) (master : Option UInt32) :
    ((unusedLcores layout usage master).flatMap UnusedLcores.lcores).Nodup := by
  have hperm : (layout.flatMap Socket.lcores).Perm (listedLcores layout) :=
    List.Perm.flatMap_left _ fun s _ => s.lcores_perm
  have hshown : (unusedLcores layout usage master).flatMap UnusedLcores.lcores =
      (layout.flatMap Socket.lcores).filter fun l => !isClaimed usage l && isAbove master l := by
    rw [unusedLcores, List.flatMap_map, List.filter_flatMap]
  rw [hshown]
  exact (hperm.nodup_iff.2 h).filter _

/-- What is left above a master is above the master. -/
theorem above_of_mem_unusedLcores (layout : List Socket) (usage : List Usage) (m : UInt32) :
    ∀ u ∈ unusedLcores layout usage (some m), ∀ l ∈ u.lcores, m < l := by
  intro u hu l hl
  obtain ⟨s, -, rfl⟩ := List.mem_map.1 hu
  have hfree := (List.mem_filter.1 hl).2
  rw [Bool.and_eq_true] at hfree
  exact of_decide_eq_true hfree.2

/-! ## The request -/

/-- A request for the lcores that are left above a master, without a count. -/
structure Request.WantsSlaves (request : Request) (m : UInt32) : Prop where
  method : request.method = .get
  path : request.target.segments = ["v1", "cpu_unused"]
  query : UnusedQuery.ofTarget request.target = .ok ⟨some m, none⟩

open Program in
theorem handle_of_wantsSlaves {request : Request} {m : UInt32} (h : request.WantsSlaves m)
    (layout : List Socket) :
    Gateway.handle layout request = cpuUsage.bind fun usage =>
      done (.json (Gateway.unusedPayload (unusedLcores layout usage (some m))
        (Gateway.offeredSlaves (unusedLcores layout usage (some m)) ⟨some m, none⟩))) := by
  obtain ⟨method, target, body⟩ := request
  obtain ⟨hmethod, hpath, hquery⟩ := h
  cases hmethod
  have hroutes : routes target.segments = [(.get, .cpuUnused)] := congrArg routes hpath
  have hattend : Gateway.attend layout ⟨.get, target, body⟩ .cpuUnused =
      Gateway.displayUnused layout ⟨some m, none⟩ := by
    simp only [Gateway.attend, Errand.decode, Gateway.perform]
    rw [hquery]
  rw [Gateway.handle, hroutes]
  change (Gateway.attend layout ⟨.get, target, body⟩ .cpuUnused).bind (fun x => done x) = _
  rw [hattend, bind_done, Gateway.displayUnused, cpuUnused]
  exact bind_assoc cpuUsage _ _

namespace Service

open Broker Program

/-- What is done for such a request is an account of the lcores. -/
theorem program_of_wantsSlaves {request : Request} {m : UInt32} (h : request.WantsSlaves m)
    (layout : List Socket) :
    (Service.request layout request).program =
      .act .roster (accountFor fun usage => .response (.json
        (Gateway.unusedPayload (unusedLcores layout usage (some m))
          (Gateway.offeredSlaves (unusedLcores layout usage (some m)) ⟨some m, none⟩)))) := by
  rw [← cpuUsage_map]
  change (Gateway.handle layout request).bind _ = _
  rw [handle_of_wantsSlaves h]
  exact bind_assoc _ _ _

/-- A request for slaves without a count is answered with the lcores that nobody has claimed above
the master. The slaves are all of them, ascending and each once, just if none of them is shown
twice; otherwise no slave is offered. A layout that is read from a file tree shows none twice. -/
theorem slaves_without_count {asked : Nat → Service} {timeout c : Nat} {past : List (Deed Upshot)}
    {b : Broker Upshot} {layout : List Socket} {request : Request} {m : UInt32} {x : Response}
    (hr : Run (fun _ => Starts asked) (fresh timeout) past b)
    (hc : asked c = .request layout request) (hrequest : request.WantsSlaves m)
    (hend : b.phase? c = some (.finished (.response x))) :
    ∃ unused slaves, x = .json (Gateway.unusedPayload unused (some slaves)) ∧
      List.Forall₂ (fun s u => s.Leaves (IsFree (IsClaimedIn past c) (some m)) u) layout unused ∧
      (IsAllOf slaves unused ↔ (unused.flatMap UnusedLcores.lcores).Nodup) ∧
      (¬(unused.flatMap UnusedLcores.lcores).Nodup → slaves = []) ∧
      ∀ t, sysfsLayout t = .ok layout → IsAllOf slaves unused := by
  have hP := hc ▸ program_of_wantsSlaves hrequest layout
  obtain ⟨usage, hy, hclaimed, -⟩ := accounted hr hP hend
  cases hy
  have habove := above_of_mem_unusedLcores layout usage m
  have hoffered := offeredSlaves_eq habove
  have hall := isAllOf_offered_iff habove hoffered
  refine ⟨_, _, ?_, ?_, hall, fun hrepeats => if_neg hrepeats, fun t ht => ?_⟩
  · rw [hoffered]
  · refine (leaves_unusedLcores layout usage (some m)).imp fun s u hu => hu.congr fun l => ?_
    simp only [IsFree, hclaimed]
  · exact hall.2 (nodup_unusedLcores (nodup_sysfsLayout ht) usage (some m))

/-- A request for slaves above 0. -/
def slavesRequest : Request := ⟨.get, .ofText "/v1/cpu_unused?master_lcore=0", []⟩

theorem slavesRequest_wantsSlaves : slavesRequest.WantsSlaves 0 where
  method := rfl
  path := by decide +kernel
  query := by decide +kernel

/-- When nobody is registered, an account comes to its end at once. -/
theorem exists_run_alone {s : Service} {f : List Usage → Upshot}
    (hP : s.program = .act .roster (accountFor f)) (hrefs : s.refs = []) (hbrings : s.brings = none)
    (timeout : Nat) : ∃ past b, Run (fun _ => Starts fun _ => s) (fresh timeout) past b ∧
      b.phase? 0 = some (.finished (f [])) := by
  have hstart : Starts (fun _ => s) (fresh timeout)
      (.start (.act .roster (accountFor f)) [] none) := by
    refine ⟨⟨?_, ?_⟩, hP.symm, hrefs.symm, hbrings.symm⟩
    · rw [hrefs]
      exact nofun
    · rw [hbrings]
      exact nofun
  exact ⟨_, _, .snoc (.run 0) (.snoc (.run 0) (.snoc (.run 0) (.snoc _ .nil hstart rfl) trivial rfl)
    trivial rfl) trivial rfl, rfl⟩

/-- A machine with two cpus on one socket. -/
def twoCpus : FileTree := .ofFiles "/sys/devices/system/cpu"
  [("kernel_max", some "1\n"), ("cpu0/topology/core_id", some "0\n"),
    ("cpu0/topology/physical_package_id", some "0\n"), ("cpu1/topology/core_id", some "1\n"),
    ("cpu1/topology/physical_package_id", some "0\n")]

/-- Its layout. -/
def twoCpusLayout : List Socket := [⟨0, [⟨0, [0]⟩, ⟨1, [1]⟩]⟩]

theorem slaves_of_two_cpus :
    sysfsLayout twoCpus = .ok twoCpusLayout ∧ slavesRequest.WantsSlaves 0 ∧
      ∃ past b unused slaves, Run (fun _ => Starts fun _ => .request twoCpusLayout slavesRequest)
          (fresh 5) past b ∧
        b.phase? 0 = some (.finished (.response (.json
          (Gateway.unusedPayload unused (some slaves))))) ∧
        IsAllOf slaves unused := by
  have hlayout : sysfsLayout twoCpus = .ok twoCpusLayout :=
    Except.eq_ok_of_toOption (by decide +kernel)
  obtain ⟨past, b, hr, hend⟩ := exists_run_alone
    (program_of_wantsSlaves slavesRequest_wantsSlaves twoCpusLayout) rfl rfl 5
  obtain ⟨unused, slaves, hx, -, -, -, hall⟩ :=
    slaves_without_count hr rfl slavesRequest_wantsSlaves hend
  exact ⟨hlayout, slavesRequest_wantsSlaves, past, b, unused, slaves, hr, hx ▸ hend,
    hall twoCpus hlayout⟩

/-- The output of a helper that lists an lcore in two cores. -/
def repeatingOutput : String :=
  "[\x7b\"socket_id\":0,\"cores\":[\x7b\"core_id\":0,\"lcores\":[1,2]\x7d,\x7b\"core_id\":1,\"lcores\":[2]\x7d]\x7d]"

/-- A socket with an lcore in two cores. -/
def repeatingLayout : List Socket := [⟨0, [⟨0, [1, 2]⟩, ⟨1, [2]⟩]⟩]

theorem unusedLcores_repeatingLayout :
    unusedLcores repeatingLayout [] (some 0) = [⟨0, [1, 2, 2]⟩] := by
  have hsorted : Socket.lcores ⟨0, [⟨0, [1, 2]⟩, ⟨1, [2]⟩]⟩ = [1, 2, 2] :=
    List.mergeSort_of_pairwise (by decide)
  rw [repeatingLayout, unusedLcores, List.map_singleton, hsorted]
  rfl

/-- A helper lists an lcore in two cores, and nobody is registered: no slave is offered, although
two lcores are left above the master. -/
theorem slaves_of_repeated_lcore :
    (helperLayout "layout" (.exited 0 repeatingOutput.toUTF8.toList)).toOption =
        some repeatingLayout ∧
      ∃ past b, Run (fun _ => Starts fun _ => .request repeatingLayout slavesRequest) (fresh 5)
          past b ∧
        b.phase? 0 = some (.finished (.response (.json
          (Gateway.unusedPayload [⟨0, [1, 2, 2]⟩] (some []))))) ∧
        IsAllOf [1, 2] [⟨0, [1, 2, 2]⟩] ∧ ¬IsAllOf [] [⟨0, [1, 2, 2]⟩] := by
  obtain ⟨past, b, hr, hend⟩ := exists_run_alone
    (program_of_wantsSlaves slavesRequest_wantsSlaves repeatingLayout) rfl rfl 5
  have hall : IsAllOf [1, 2] [⟨0, [1, 2, 2]⟩] := ⟨by decide, fun l => by simp⟩
  refine ⟨by decide +kernel, past, b, hr, ?_, hall, fun h => ?_⟩
  · rw [hend, offeredSlaves_eq (above_of_mem_unusedLcores _ _ _), unusedLcores_repeatingLayout,
      if_neg (by decide)]
  · cases (h.2 1).2 ((hall.2 1).1 List.mem_cons_self)

end Service

end WorkerBroker
