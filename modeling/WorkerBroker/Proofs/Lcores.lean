import Mathlib.Data.List.Dedup
import Mathlib.Data.List.Forall2
import WorkerBroker.Lcore.Usage
/-!
# The accounting of lcores

What a worker claims by its status is said by `Json.Reports`, with one case for each form that a
status may have, and `usageOf` reads just that (`usageOf_eq_some_iff`). What is left of a socket is
determined by which lcores are free (`Socket.Leaves.eq`): they are shown in ascending order, each as
often as the cores of the socket list it. So what is left of a layout depends on the set of the
lcores that are claimed, and not on who claims them (`leaves_unusedLcores`).
-/

namespace WorkerBroker

/-! ## What a status claims -/

/-- The value that stands for an lcore. -/
def lcoreValue (n : UInt32) : Json := .ofNat n.toNat

/-- A status reports a master and lcores in the form that suits the kind of its worker. -/
inductive Json.Reports (status : Json) : WorkerKind → UInt32 → List UInt32 → Prop where
  | primary {master : UInt32} {lcores : List UInt32}
      (hm : status.member? "master-lcore" = some (lcoreValue master))
      (hl : status.member? "lcores" = some (.array (lcores.map lcoreValue))) :
      status.Reports .primary master lcores
  /-- without a master lcore the first one is the master -/
  | firstIsMaster {master : UInt32} {lcores : List UInt32}
      (hm : status.member? "master-lcore" = none)
      (hl : status.member? "lcores" = some (.array ((master :: lcores).map lcoreValue))) :
      status.Reports .primary master (master :: lcores)
  | forwarder {master : UInt32} {lcores : List UInt32}
      (hm : status.member? "master-lcore" = some (lcoreValue master))
      (hl : status.member? "lcores" = some (.array (lcores.map lcoreValue))) :
      status.Reports .nfv master lcores
  | components {kind : WorkerKind} {info : Json} {cores : List Json} {master : UInt32}
      {lcores : List UInt32} (hk : kind = .vf ∨ kind = .mirror ∨ kind = .pcap)
      (hi : status.member? "info" = some info)
      (hm : info.member? "master-lcore" = some (lcoreValue master))
      (hc : info.member? "core" = some (.array cores))
      (hl : List.Forall₂ (fun core l => core.member? "core" = some (lcoreValue l)) cores lcores) :
      status.Reports kind master (master :: lcores)

/-- A worker of some kind claims an lcore by its status. -/
def Json.Claims (status : Json) (kind : WorkerKind) (l : UInt32) : Prop :=
  ∃ master lcores, status.Reports kind master lcores ∧ (l = master ∨ l ∈ lcores)

/-! ### Reading numbers -/

theorem asU64?_eq_some_iff {v : Json} {n : Nat} :
    v.asU64? = some n ↔ v = .ofNat n ∧ n < UInt64.size := by
  constructor
  · intro h
    unfold Json.asU64? at h
    split at h
    · split at h
      · rename_i hm
        cases h
        refine ⟨?_, by omega⟩
        rw [Json.ofNat, Int.toNat_of_nonneg hm.1]
      · cases h
    · cases h
  · rintro ⟨rfl, hlt⟩
    rw [Json.ofNat, Json.asU64?, if_pos ⟨Int.natCast_nonneg _, Int.ofNat_lt.2 hlt⟩]
    rfl

theorem asU32?_eq_some_iff {v : Json} {n : UInt32} : v.asU32? = some n ↔ v = lcoreValue n := by
  rw [Json.asU32?, Option.bind_eq_some_iff]
  simp only [asU64?_eq_some_iff]
  constructor
  · rintro ⟨k, ⟨rfl, -⟩, h⟩
    split at h
    · rename_i hlt
      cases h
      rw [lcoreValue, UInt32.toNat_ofNat_of_lt' hlt]
    · cases h
  · rintro rfl
    refine ⟨n.toNat, ⟨rfl, Nat.lt_trans n.toNat_lt (by decide)⟩, ?_⟩
    rw [if_pos n.toNat_lt_size, UInt32.ofNat_toNat]

/-- To read a list is to read its items. -/
theorem mapM_eq_some_iff {α β : Type} {f : α → Option β} {xs : List α} {ys : List β} :
    xs.mapM f = some ys ↔ List.Forall₂ (fun x y => f x = some y) xs ys := by
  induction xs generalizing ys with
  | nil =>
    rw [List.mapM_nil, Option.pure_def, Option.some.injEq, List.forall₂_nil_left_iff]
    exact eq_comm
  | cons x xs ih =>
    simp only [List.mapM_cons, Option.bind_eq_bind, Option.bind_eq_some_iff, Option.pure_def,
      Option.some.injEq, ih, List.forall₂_cons_left_iff]
    grind

theorem asU32List?_eq_some_iff {v : Json} {ls : List UInt32} :
    v.asU32List? = some ls ↔ v = .array (ls.map lcoreValue) := by
  have hitems : ∀ items : List Json,
      items.mapM Json.asU32? = some ls ↔ items = ls.map lcoreValue := by
    intro items
    simp only [mapM_eq_some_iff, asU32?_eq_some_iff]
    rw [← List.forall₂_map_right_iff, List.forall₂_eq_eq_eq]
  cases v with
  | array items => simp [Json.asU32List?, Json.asArray?, hitems]
  | _ => simp [Json.asU32List?, Json.asArray?]

theorem asArray?_eq_some_iff {v : Json} {items : List Json} :
    v.asArray? = some items ↔ v = .array items := by
  cases v <;> simp [Json.asArray?]

/-! ### Reading a status -/

section

variable {status : Json} {u : Usage}

/-- The lcores are not written out here, so that nothing tries to evaluate them. -/
theorem primaryUsage?_of_head {v : Json} {master : UInt32} {lcores : List UInt32}
    (hm : status.member? "master-lcore" = none) (hl : status.member? "lcores" = some v)
    (hv : v.asU32List? = some (master :: lcores)) :
    primaryUsage? status = some ⟨.primary, none, master, master :: lcores⟩ := by
  simp [primaryUsage?, hm, hl, hv]

theorem primaryUsage?_eq_some_iff :
    primaryUsage? status = some u ↔
      u.kind = .primary ∧ u.clientId = none ∧ status.Reports .primary u.master u.lcores := by
  obtain ⟨kind, clientId, master, lcores⟩ := u
  constructor
  · intro h
    simp only [primaryUsage?, Option.bind_eq_bind, Option.bind_eq_some_iff, asU32List?_eq_some_iff,
      exists_eq_right] at h
    obtain ⟨ls, hv, h⟩ := h
    split at h
    · rename_i w hw
      obtain ⟨m, hm, hu⟩ := Option.bind_eq_some_iff.1 h
      cases hu
      rw [asU32?_eq_some_iff] at hm
      subst hm
      exact ⟨rfl, rfl, .primary hw hv⟩
    · rename_i hnone
      obtain ⟨m, hm, hu⟩ := Option.bind_eq_some_iff.1 h
      cases hu
      obtain ⟨ls, rfl⟩ := List.head?_eq_some_iff.1 hm
      exact ⟨rfl, rfl, .firstIsMaster hnone hv⟩
  · rintro ⟨hkind, hid, h⟩
    cases hkind
    cases hid
    replace h : status.Reports .primary master lcores := h
    cases h with
    | primary hm hl =>
      simp [primaryUsage?, hm, hl, asU32?_eq_some_iff.2 rfl, asU32List?_eq_some_iff.2 rfl]
    | firstIsMaster hm hl => exact primaryUsage?_of_head hm hl (asU32List?_eq_some_iff.2 rfl)
    | components hk => simp at hk

theorem forwarderUsage?_eq_some_iff {id : UInt32} :
    forwarderUsage? id status = some u ↔
      u.kind = .nfv ∧ u.clientId = some id ∧ status.Reports .nfv u.master u.lcores := by
  obtain ⟨kind, clientId, master, lcores⟩ := u
  simp only [forwarderUsage?, Option.bind_eq_bind, Option.bind_eq_some_iff, asU32?_eq_some_iff,
    asU32List?_eq_some_iff, exists_eq_right, Option.pure_def, Option.some.injEq, Usage.mk.injEq]
  constructor
  · rintro ⟨m, hm, ls, hl, rfl, rfl, rfl, rfl⟩
    exact ⟨rfl, rfl, .forwarder hm hl⟩
  · rintro ⟨rfl, rfl, h⟩
    cases h with
    | forwarder hm hl => exact ⟨master, hm, lcores, hl, rfl, rfl, rfl, rfl⟩
    | components hk => simp at hk

theorem componentUsage?_eq_some_iff {kind : WorkerKind} {id : UInt32}
    (hk : kind = .vf ∨ kind = .mirror ∨ kind = .pcap) :
    componentUsage? kind id status = some u ↔
      u.kind = kind ∧ u.clientId = some id ∧ status.Reports kind u.master u.lcores := by
  obtain ⟨kind', clientId, master, lcores⟩ := u
  simp only [componentUsage?, Option.bind_eq_bind, Option.bind_eq_some_iff, asU32?_eq_some_iff,
    asArray?_eq_some_iff, mapM_eq_some_iff, exists_eq_right, Option.pure_def, Option.some.injEq,
    Usage.mk.injEq]
  constructor
  · rintro ⟨info, hi, m, hm, cores, hc, ls, hl, rfl, rfl, rfl, rfl⟩
    exact ⟨rfl, rfl, .components hk hi hm hc hl⟩
  · rintro ⟨rfl, rfl, h⟩
    cases h with
    | components hk hi hm hc hl => exact ⟨_, hi, master, hm, _, hc, _, hl, rfl, rfl, rfl, rfl⟩
    | primary | firstIsMaster | forwarder => simp at hk

/-- What is read off a status is what it reports. -/
theorem usageOf_eq_some_iff {kind : WorkerKind} {id : UInt32} :
    usageOf kind id status = some u ↔
      u.kind = kind ∧ u.clientId = (if kind.isSecondary then some id else none) ∧
        status.Reports kind u.master u.lcores := by
  cases kind with
  | primary => exact primaryUsage?_eq_some_iff
  | nfv => exact forwarderUsage?_eq_some_iff
  | vf | mirror | pcap => exact componentUsage?_eq_some_iff (by simp)

/-- What a worker claims is what is read off its status. -/
theorem Json.claims_iff {kind : WorkerKind} {id : UInt32} {l : UInt32} :
    status.Claims kind l ↔
      ∃ u, usageOf kind id status = some u ∧ (l = u.master ∨ l ∈ u.lcores) := by
  constructor
  · rintro ⟨master, lcores, h, hl⟩
    exact ⟨⟨kind, _, master, lcores⟩, usageOf_eq_some_iff.2 ⟨rfl, rfl, h⟩, hl⟩
  · rintro ⟨u, hu, hl⟩
    exact ⟨u.master, u.lcores, (usageOf_eq_some_iff.1 hu).2.2, hl⟩

end

/-! ## The lcores of a socket -/

/-- An lcore is claimed if somebody claims it. -/
theorem isClaimed_iff {usage : List Usage} {l : UInt32} :
    isClaimed usage l ↔ ∃ u ∈ usage, l = u.master ∨ l ∈ u.lcores := by
  simp [isClaimed]

theorem Socket.lcores_perm (s : Socket) : s.lcores.Perm (s.cores.flatMap Core.lcores) :=
  List.mergeSort_perm _ _

theorem pairwise_mergeSort_lcores (ls : List UInt32) :
    (ls.mergeSort fun a b => a ≤ b).Pairwise (· ≤ ·) := by
  have htrans : ∀ a b c : UInt32, decide (a ≤ b) → decide (b ≤ c) → decide (a ≤ c) := by
    intro a b c hab hbc
    rw [decide_eq_true_iff] at hab hbc ⊢
    exact UInt32.le_trans hab hbc
  have htotal : ∀ a b : UInt32, decide (a ≤ b) || decide (b ≤ a) := by
    intro a b
    rw [Bool.or_eq_true, decide_eq_true_iff, decide_eq_true_iff]
    exact UInt32.le_total a b
  exact (List.pairwise_mergeSort htrans htotal ls).imp of_decide_eq_true

/-- What is left of a socket when some lcores are free: these, ascending, and each as often as the
cores of the socket list it. -/
structure Socket.Leaves (s : Socket) (free : UInt32 → Prop) (u : UnusedLcores) : Prop where
  socket : u.socket = s.id
  ascending : u.lcores.Pairwise (· ≤ ·)
  keeps : ∀ l, free l → u.lcores.count l = (s.cores.flatMap Core.lcores).count l
  only : ∀ l ∈ u.lcores, free l

namespace Socket.Leaves

variable {s : Socket} {free free' : UInt32 → Prop} {u u' : UnusedLcores}

theorem congr (h : s.Leaves free u) (hf : ∀ l, free l ↔ free' l) : s.Leaves free' u where
  socket := h.socket
  ascending := h.ascending
  keeps l hl := h.keeps l ((hf l).2 hl)
  only l hl := (hf l).1 (h.only l hl)

/-- What is left is determined by what is free. -/
theorem eq (h : s.Leaves free u) (h' : s.Leaves free u') : u = u' := by
  have hperm : u.lcores.Perm u'.lcores := by
    refine List.perm_iff_count.2 fun l => ?_
    by_cases hl : free l
    · rw [h.keeps l hl, h'.keeps l hl]
    · rw [List.count_eq_zero_of_not_mem fun hm => hl (h.only l hm),
        List.count_eq_zero_of_not_mem fun hm => hl (h'.only l hm)]
  have hlcores : u.lcores = u'.lcores :=
    hperm.eq_of_pairwise (fun _ _ _ _ => UInt32.le_antisymm) h.ascending h'.ascending
  have hsocket : u.socket = u'.socket := h.socket.trans h'.socket.symm
  cases u
  cases u'
  cases hlcores
  cases hsocket
  rfl

/-- What is left above a master is what is left, if it is above the master. -/
theorem above (h : s.Leaves free u) (m : UInt32) :
    s.Leaves (fun l => free l ∧ m < l) ⟨u.socket, u.lcores.filter (m < ·)⟩ where
  socket := h.socket
  ascending := h.ascending.filter _
  keeps l hl := by
    rw [← h.keeps l hl.1]
    exact List.count_filter (p := (m < ·)) (decide_eq_true hl.2)
  only l hl := by
    obtain ⟨hmem, hlt⟩ := List.mem_filter.1 hl
    exact ⟨h.only l hmem, of_decide_eq_true hlt⟩

end Socket.Leaves

/-- The free lcores: those that nobody claims, and with a master only those above it. -/
def IsFree (claimed : UInt32 → Prop) (master : Option UInt32) (l : UInt32) : Prop :=
  ¬claimed l ∧ ∀ m ∈ master, m < l

theorem leaves_of_filter (s : Socket) (free : UInt32 → Bool) :
    s.Leaves (fun l => free l) ⟨s.id, s.lcores.filter free⟩ where
  socket := rfl
  ascending := (pairwise_mergeSort_lcores _).filter _
  keeps l hl := by
    rw [List.count_filter hl]
    exact s.lcores_perm.count_eq l
  only l hl := (List.mem_filter.1 hl).2

/-- There is one entry for each socket of the layout, with what is left of the socket. -/
theorem leaves_unusedLcores (layout : List Socket) (usage : List Usage) (master : Option UInt32) :
    List.Forall₂ (fun s u => s.Leaves (IsFree (fun l => isClaimed usage l) master) u) layout
      (unusedLcores layout usage master) := by
  rw [unusedLcores, List.forall₂_map_right_iff, List.forall₂_same]
  intro s hs
  refine (leaves_of_filter s fun l => !isClaimed usage l && isAbove master l).congr fun l => ?_
  cases master <;> simp [IsFree, isAbove]

/-- The answer depends on nothing but the layout and which lcores are free. -/
theorem eq_of_leaves {layout : List Socket} {free : UInt32 → Prop} {us us' : List UnusedLcores}
    (h : List.Forall₂ (fun s u => s.Leaves free u) layout us)
    (h' : List.Forall₂ (fun s u => s.Leaves free u) layout us') : us = us' := by
  induction h generalizing us' with
  | nil =>
    cases h'
    rfl
  | cons hu h ih =>
    cases h' with
    | cons hu' h' => rw [hu.eq hu', ih h']

end WorkerBroker
