import Mathlib.Data.List.Induction
import Mathlib.Data.List.Sort
import WorkerBroker.Lcore.Sysfs
import WorkerBroker.Proofs.Lcores
import WorkerBroker.Proofs.Numerals
/-!
# Layouts from file trees

A file tree describes each cpu by two files, and a cpu is online if both hold a number
(`FileTree.Places`). The layout of the tree is arranged by these numbers: it lists just the cpus
that are online, each once and in the core and on the socket that its files give, and everything in
it is ascending and not empty (`Partitions`). There is one such layout only (`Arranges.eq`), and it
is the one that is read (`sysfsLayout_partitions`).

The layout comes from two loops. The first gathers the cpus in a table of cores (`Groups`). They
come ascending, so each is larger than all that are there. The second cuts the table into sockets
and looks at the last socket only. That is enough because the table is ascending: the next core is
behind all that have been placed (`Arranges.addCore`), so no earlier socket has its id.
-/

namespace WorkerBroker

/-! ## Files -/

namespace FileTree

variable {t : FileTree}

/-- A file holds a number: its text is a numeral of it, maybe with blanks around. -/
def Holds (t : FileTree) (path : TreePath) (n : UInt32) : Prop :=
  ∃ before numeral after, (∀ c ∈ before, isBlank c) ∧ (∀ c ∈ after, isBlank c) ∧
    IsNumeral numeral n.toNat ∧
    t.contents? path = some (String.ofList (before ++ (numeral ++ after)))

theorem number?_eq_some_iff {path : TreePath} {n : UInt32} :
    t.number? path = some n ↔ t.Holds path n := by
  rw [number?, Option.bind_eq_some_iff]
  simp only [readU32_trim_eq_some_iff]
  constructor
  · rintro ⟨s, hs, before, numeral, after, hb, ha, h, hcs⟩
    refine ⟨before, numeral, after, hb, ha, h, ?_⟩
    rw [hs, ← hcs, String.ofList_toList]
  · rintro ⟨before, numeral, after, hb, ha, h, hs⟩
    exact ⟨_, hs, before, numeral, after, hb, ha, h, String.toList_ofList⟩

/-- A cpu is online, on this core of this socket: its two files say so. -/
def Places (t : FileTree) (cpu socket core : UInt32) : Prop :=
  t.Holds ["core_id", "topology", "cpu" ++ decimal cpu.toNat] core ∧
    t.Holds ["physical_package_id", "topology", "cpu" ++ decimal cpu.toNat] socket

theorem place?_eq_some_iff {cpu socket core : UInt32} :
    t.place? cpu = some ⟨socket, core⟩ ↔ t.Places cpu socket core := by
  simp [place?, Places, number?_eq_some_iff, Option.bind_eq_some_iff]

/-- A cpu has one place at most. -/
theorem Places.unique {cpu socket core socket' core' : UInt32} (h : t.Places cpu socket core)
    (h' : t.Places cpu socket' core') : socket = socket' ∧ core = core' := by
  rw [← place?_eq_some_iff] at h h'
  cases h.symm.trans h'
  exact ⟨rfl, rfl⟩

end FileTree

/-! ## Lists with ascending keys -/

section

variable {α : Type} {key : α → UInt32} {xs ys : List α}

/-- A list with ascending keys has each key once. -/
theorem eq_of_key (h : xs.Pairwise fun x y => key x < key y) {x y : α} (hx : x ∈ xs) (hy : y ∈ xs)
    (hk : key x = key y) : x = y := by
  have hnodup : (xs.map key).Nodup :=
    List.pairwise_map.2 (h.imp fun hlt => UInt32.ne_of_lt hlt)
  exact List.inj_on_of_nodup_map hnodup hx hy hk

/-- A list with ascending keys is determined by its members. -/
theorem eq_of_ascending (hx : xs.Pairwise fun x y => key x < key y)
    (hy : ys.Pairwise fun x y => key x < key y) (h : ∀ x, x ∈ xs ↔ x ∈ ys) : xs = ys := by
  have : Std.Asymm fun x y => key x < key y := ⟨fun _ _ => UInt32.lt_asymm⟩
  exact hx.eq_of_mem_iff hy h

end

/-! ## Tables of cores -/

namespace CorePlace

variable {p q r : CorePlace}

theorem lt_iff : p < q ↔ p.socket < q.socket ∨ p.socket = q.socket ∧ p.core < q.core := Iff.rfl

theorem lt_trans (hpq : p < q) (hqr : q < r) : p < r := by
  rw [lt_iff] at hpq hqr ⊢
  rcases hpq with hpq | ⟨hsame, hpq⟩
  · rcases hqr with hqr | ⟨hsame', -⟩
    · exact .inl (UInt32.lt_trans hpq hqr)
    · exact .inl (hsame' ▸ hpq)
  · rcases hqr with hqr | ⟨hsame', hqr⟩
    · exact .inl (hsame ▸ hqr)
    · exact .inr ⟨hsame.trans hsame', UInt32.lt_trans hpq hqr⟩

theorem lt_irrefl (p : CorePlace) : ¬p < p := by
  rw [lt_iff]
  rintro (h | ⟨-, h⟩)
  · exact UInt32.lt_irrefl _ h
  · exact UInt32.lt_irrefl _ h

theorem eq_of_not_lt (hpq : ¬p < q) (hqp : ¬q < p) : p = q := by
  rw [lt_iff, not_or, not_and] at hpq hqp
  have hsocket : p.socket = q.socket :=
    UInt32.le_antisymm (UInt32.not_lt.1 hqp.1) (UInt32.not_lt.1 hpq.1)
  have hcore : p.core = q.core :=
    UInt32.le_antisymm (UInt32.not_lt.1 (hqp.2 hsocket.symm)) (UInt32.not_lt.1 (hpq.2 hsocket))
  cases p
  cases q
  cases hsocket
  cases hcore
  rfl

instance : Trans (α := CorePlace) (· < ·) (· < ·) (· < ·) := ⟨lt_trans⟩

instance : Std.Irrefl (α := CorePlace) (· < ·) := ⟨lt_irrefl⟩

instance : Std.Trichotomous (α := CorePlace) (· < ·) := ⟨fun _ _ => eq_of_not_lt⟩

end CorePlace

/-- A table of cores groups the lcores that have a place: each stands in the list of its core, and
these lists are ascending and not empty. -/
structure Groups (found : CoreTable) (place : UInt32 → CorePlace → Prop) : Prop where
  ascending : Table.Ascending found
  ordered : ∀ p ls, Table.find? p found = some ls → ls ≠ [] ∧ ls.Pairwise (· < ·)
  mem_iff : ∀ l p, l ∈ (Table.find? p found).getD [] ↔ place l p

namespace Groups

variable {found : CoreTable} {place place' : UInt32 → CorePlace → Prop}

theorem congr (h : Groups found place) (hp : ∀ lcore p, place lcore p ↔ place' lcore p) :
    Groups found place' where
  ascending := h.ascending
  ordered := h.ordered
  mem_iff lcore p := (h.mem_iff lcore p).trans (hp lcore p)

/-- The lcores that were found for a core are ascending, also if there are none yet. -/
theorem pairwise_getD (h : Groups found place) (p : CorePlace) :
    ((Table.find? p found).getD []).Pairwise (· < ·) := by
  rcases hp : Table.find? p found with _ | ls
  · exact .nil
  · exact (h.ordered p ls hp).2

/-- A cpu that is larger than all that are there is added at its place. -/
theorem add (h : Groups found place) {cpu : UInt32} (hnew : ∀ l p, place l p → l < cpu)
    (p : CorePlace) :
    Groups (Table.put p ((Table.find? p found).getD [] ++ [cpu]) found) fun l q =>
      (q = p ∧ l = cpu) ∨ place l q where
  ascending := h.ascending.put _ _
  ordered q ls hq := by
    rw [Table.find?_put] at hq
    split at hq
    · cases hq
      refine ⟨by simp, List.pairwise_append.2 ⟨h.pairwise_getD p, List.pairwise_singleton _ _, ?_⟩⟩
      intro l hl l' hl'
      rw [List.mem_singleton.1 hl']
      exact hnew l p ((h.mem_iff l p).1 hl)
    · exact h.ordered q ls hq
  mem_iff l q := by
    rw [Table.find?_put]
    split
    · rename_i hq
      subst hq
      rw [Option.getD_some, List.mem_append, h.mem_iff, List.mem_singleton, or_comm]
      simp
    · rename_i hq
      rw [h.mem_iff]
      simp [hq]

/-- One cpu more is at its place if it is online, and nowhere otherwise. -/
theorem gather (h : Groups found place) {t : FileTree} {cpu : UInt32}
    (hnew : ∀ l p, place l p → l < cpu) :
    Groups (t.gather found cpu) fun l p => (l = cpu ∧ t.Places l p.socket p.core) ∨ place l p := by
  rw [FileTree.gather]
  split
  · rename_i p hp
    refine (h.add hnew p).congr fun l q => or_congr_left ?_
    constructor
    · rintro ⟨rfl, rfl⟩
      exact ⟨rfl, FileTree.place?_eq_some_iff.1 hp⟩
    · rintro ⟨rfl, hplaces⟩
      rw [FileTree.place?_eq_some_iff.2 hplaces] at hp
      cases hp
      exact ⟨rfl, rfl⟩
  · rename_i hp
    refine h.congr fun l q => (or_iff_right ?_).symm
    rintro ⟨rfl, hplaces⟩
    rw [FileTree.place?_eq_some_iff.2 hplaces] at hp
    cases hp

end Groups

/-- After the first `n` cpus the table groups those among them that are online. -/
theorem groups_foldl_gather (t : FileTree) {n : Nat} (hn : n ≤ UInt32.size) :
    Groups (((List.range n).map UInt32.ofNat).foldl t.gather []) fun l p =>
      l.toNat < n ∧ t.Places l p.socket p.core := by
  induction n with
  | zero => exact ⟨.nil, nofun, by simp⟩
  | succ n ih =>
    have hcpu : (UInt32.ofNat n).toNat = n := UInt32.toNat_ofNat_of_lt' hn
    rw [List.range_succ, List.map_append, List.foldl_append]
    refine Groups.congr ((ih (by omega)).gather ?_) fun l p => ?_
    · rintro l p ⟨hl, -⟩
      rwa [UInt32.lt_iff_toNat_lt, hcpu]
    · rw [← UInt32.toNat_inj, hcpu, ← or_and_right]
      refine and_congr_left fun _ => ?_
      omega

/-! ## Arranged layouts -/

/-- A core with lcores, ascending. -/
structure Core.IsOrdered (c : Core) : Prop where
  ne_nil : c.lcores ≠ []
  lcores : c.lcores.Pairwise (· < ·)

/-- A socket with cores, ascending, and each of them ordered. -/
structure Socket.IsOrdered (s : Socket) : Prop where
  ne_nil : s.cores ≠ []
  cores : s.cores.Pairwise fun c c' => c.id < c'.id
  ordered : ∀ c ∈ s.cores, c.IsOrdered

/-- The lcores of a layout, as its cores list them. -/
def listedLcores (layout : List Socket) : List UInt32 :=
  layout.flatMap fun s => s.cores.flatMap Core.lcores

/-- A layout lists an lcore in a core of a socket. -/
def Lists (layout : List Socket) (lcore socket core : UInt32) : Prop :=
  ∃ s ∈ layout, s.id = socket ∧ ∃ c ∈ s.cores, c.id = core ∧ lcore ∈ c.lcores

theorem lists_append {layout layout' : List Socket} {lcore socket core : UInt32} :
    Lists (layout ++ layout') lcore socket core ↔
      Lists layout lcore socket core ∨ Lists layout' lcore socket core := by
  simp only [Lists, List.mem_append, or_and_right, exists_or]

theorem lists_singleton {s : Socket} {lcore socket core : UInt32} :
    Lists [s] lcore socket core ↔
      s.id = socket ∧ ∃ c ∈ s.cores, c.id = core ∧ lcore ∈ c.lcores := by
  simp [Lists]

theorem addCore_concat {layout : List Socket} {last : Socket} {p : CorePlace}
    {lcores : List UInt32} : addCore (layout ++ [last]) (p, lcores) =
      if last.id = p.socket then
        layout ++ [{ last with cores := last.cores ++ [⟨p.core, lcores⟩] }]
      else layout ++ [last] ++ [⟨p.socket, [⟨p.core, lcores⟩]⟩] := by
  simp [addCore]

/-- A layout lists the lcores that have a place, each at its place, and is ordered. -/
structure Arranges (layout : List Socket) (place : UInt32 → UInt32 → UInt32 → Prop) : Prop where
  lists_iff : ∀ lcore socket core, Lists layout lcore socket core ↔ place lcore socket core
  sockets : layout.Pairwise fun s s' => s.id < s'.id
  ordered : ∀ s ∈ layout, s.IsOrdered

namespace Arranges

variable {layout layout' : List Socket} {place place' : UInt32 → UInt32 → UInt32 → Prop}

theorem congr (h : Arranges layout place)
    (hp : ∀ lcore socket core, place lcore socket core ↔ place' lcore socket core) :
    Arranges layout place' where
  lists_iff lcore socket core := (h.lists_iff lcore socket core).trans (hp lcore socket core)
  sockets := h.sockets
  ordered := h.ordered

/-- The lcores of a core are those with that place. -/
theorem mem_lcores_iff (h : Arranges layout place) {s : Socket} (hs : s ∈ layout) {c : Core}
    (hc : c ∈ s.cores) {l : UInt32} : l ∈ c.lcores ↔ place l s.id c.id := by
  rw [← h.lists_iff]
  constructor
  · intro hl
    exact ⟨s, hs, rfl, c, hc, rfl, hl⟩
  · rintro ⟨s', hs', hsid, c', hc', hcid, hl⟩
    obtain rfl := eq_of_key h.sockets hs' hs hsid
    obtain rfl := eq_of_key (h.ordered s' hs).cores hc' hc hcid
    exact hl

/-- All cores of a layout are at places of it. -/
theorem exists_place (h : Arranges layout place) {s : Socket} (hs : s ∈ layout) {c : Core}
    (hc : c ∈ s.cores) : ∃ l, place l s.id c.id := by
  obtain ⟨l, hl⟩ := List.exists_mem_of_ne_nil _ ((h.ordered s hs).ordered c hc).ne_nil
  exact ⟨l, (h.mem_lcores_iff hs hc).1 hl⟩

/-- The core at a place is the same in every layout that arranges the places. -/
theorem mem_cores (h : Arranges layout place) (h' : Arranges layout' place) {s s' : Socket}
    (hs : s ∈ layout) (hs' : s' ∈ layout') (hid : s.id = s'.id) {c : Core} (hc : c ∈ s.cores) :
    c ∈ s'.cores := by
  -- some lcore has this place, so the other layout has a core for it
  obtain ⟨l, hl⟩ := h.exists_place hs hc
  obtain ⟨s'', hs'', hsid, c', hc', hcid, -⟩ := (h'.lists_iff l s.id c.id).2 hl
  obtain rfl := eq_of_key h'.sockets hs'' hs' (hsid.trans hid)
  have hlcores : c.lcores = c'.lcores := by
    refine ((h.ordered s hs).ordered c hc).lcores.eq_of_mem_iff
      ((h'.ordered s'' hs').ordered c' hc').lcores fun l => ?_
    rw [h.mem_lcores_iff hs hc, h'.mem_lcores_iff hs' hc', hsid, hcid]
  have hsame : c = c' := by
    cases c
    cases c'
    cases hlcores
    cases hcid
    rfl
  exact hsame ▸ hc'

/-- So is the socket. -/
theorem mem_sockets (h : Arranges layout place) (h' : Arranges layout' place) {s : Socket}
    (hs : s ∈ layout) : s ∈ layout' := by
  obtain ⟨c, hc⟩ := List.exists_mem_of_ne_nil _ (h.ordered s hs).ne_nil
  obtain ⟨l, hl⟩ := h.exists_place hs hc
  obtain ⟨s', hs', hid, -⟩ := (h'.lists_iff l s.id c.id).2 hl
  have hcores : s.cores = s'.cores :=
    eq_of_ascending (h.ordered s hs).cores (h'.ordered s' hs').cores fun c =>
      ⟨h.mem_cores h' hs hs' hid.symm, h'.mem_cores h hs' hs hid⟩
  have hsame : s = s' := by
    cases s
    cases s'
    cases hcores
    cases hid
    rfl
  exact hsame ▸ hs'

/-- There is one layout only that arranges the places. -/
theorem eq (h : Arranges layout place) (h' : Arranges layout' place) : layout = layout' :=
  eq_of_ascending h.sockets h'.sockets fun _ => ⟨h.mem_sockets h', h'.mem_sockets h⟩

/-- When each lcore has one place at most, the layout lists none twice. -/
theorem nodup (h : Arranges layout place)
    (hplace : ∀ l s c s' c', place l s c → place l s' c' → s = s' ∧ c = c') :
    (listedLcores layout).Nodup := by
  refine List.nodup_flatMap.2 ⟨fun s hs => List.nodup_flatMap.2 ⟨fun c hc => ?_, ?_⟩, ?_⟩
  · exact ((h.ordered s hs).ordered c hc).lcores.nodup
  · refine (h.ordered s hs).cores.imp_of_mem fun hc hc' hlt l hl hl' => ?_
    rw [h.mem_lcores_iff hs hc] at hl
    rw [h.mem_lcores_iff hs hc'] at hl'
    exact UInt32.ne_of_lt hlt (hplace _ _ _ _ _ hl hl').2
  · refine h.sockets.imp_of_mem fun hs hs' hlt l hl hl' => ?_
    obtain ⟨c, hc, hl⟩ := List.mem_flatMap.1 hl
    obtain ⟨c', hc', hl'⟩ := List.mem_flatMap.1 hl'
    rw [h.mem_lcores_iff hs hc] at hl
    rw [h.mem_lcores_iff hs' hc'] at hl'
    exact UInt32.ne_of_lt hlt (hplace _ _ _ _ _ hl hl').1

/-! ### One core more -/

variable {init : List Socket} {last : Socket} {p : CorePlace} {lcores : List UInt32}

/-- A core is added on a socket of its own if all that are there have a smaller id. -/
theorem addSocket (h : Arranges layout place) (hcore : Core.IsOrdered ⟨p.core, lcores⟩)
    (hnew : ∀ s ∈ layout, s.id < p.socket) :
    Arranges (layout ++ [⟨p.socket, [⟨p.core, lcores⟩]⟩]) fun l s c =>
      (p = ⟨s, c⟩ ∧ l ∈ lcores) ∨ place l s c where
  lists_iff l s c := by
    rw [← h.lists_iff, lists_append, lists_singleton]
    cases p
    simp [and_assoc, or_comm]
  sockets := by
    refine List.pairwise_append.2 ⟨h.sockets, List.pairwise_singleton _ _, ?_⟩
    intro s hs s' hs'
    rw [List.mem_singleton.1 hs']
    exact hnew s hs
  ordered s hs := by
    rcases List.mem_append.1 hs with hs | hs
    · exact h.ordered s hs
    · rw [List.mem_singleton.1 hs]
      exact ⟨by simp, List.pairwise_singleton _ _, List.forall_mem_singleton.2 hcore⟩

/-- It is added on the last socket if this one has its id and only smaller cores. -/
theorem growLast (h : Arranges (init ++ [last]) place) (hcore : Core.IsOrdered ⟨p.core, lcores⟩)
    (hid : last.id = p.socket) (hnew : ∀ c ∈ last.cores, c.id < p.core) :
    Arranges (init ++ [{ last with cores := last.cores ++ [⟨p.core, lcores⟩] }]) fun l s c =>
      (p = ⟨s, c⟩ ∧ l ∈ lcores) ∨ place l s c where
  lists_iff l s c := by
    rw [← h.lists_iff, lists_append, lists_append, lists_singleton, lists_singleton]
    obtain ⟨socket, core⟩ := p
    subst hid
    simp only [List.mem_append, List.mem_singleton, or_and_right, exists_or, exists_eq_left,
      CorePlace.mk.injEq, and_or_left, and_assoc]
    rw [← or_assoc, or_comm]
  sockets := by
    obtain ⟨hinit, -, hlast⟩ := List.pairwise_append.1 h.sockets
    refine List.pairwise_append.2 ⟨hinit, List.pairwise_singleton _ _, ?_⟩
    intro s hs s' hs'
    rw [List.mem_singleton.1 hs']
    exact hlast s hs last List.mem_cons_self
  ordered s hs := by
    rcases List.mem_append.1 hs with hs | hs
    · exact h.ordered s (List.mem_append_left _ hs)
    · have hlast := h.ordered last (List.mem_append_right _ List.mem_cons_self)
      rw [List.mem_singleton.1 hs]
      refine ⟨by simp, List.pairwise_append.2 ⟨hlast.cores, List.pairwise_singleton _ _, ?_⟩, ?_⟩
      · intro c hc c' hc'
        rw [List.mem_singleton.1 hc']
        exact hnew c hc
      · exact List.forall_mem_append.2 ⟨hlast.ordered, List.forall_mem_singleton.2 hcore⟩

/-- A core whose place is behind all that are there is added at its place. -/
theorem addCore (h : Arranges layout place) (hcore : Core.IsOrdered ⟨p.core, lcores⟩)
    (hnew : ∀ l s c, place l s c → (⟨s, c⟩ : CorePlace) < p) :
    Arranges (addCore layout (p, lcores)) fun l s c =>
      (p = ⟨s, c⟩ ∧ l ∈ lcores) ∨ place l s c := by
  have hbehind : ∀ s ∈ layout, ∀ c ∈ s.cores, (⟨s.id, c.id⟩ : CorePlace) < p := by
    intro s hs c hc
    obtain ⟨l, hl⟩ := h.exists_place hs hc
    exact hnew l _ _ hl
  rcases layout.eq_nil_or_concat' with rfl | ⟨init, last, rfl⟩
  · exact h.addSocket hcore nofun
  · have hlast : last ∈ init ++ [last] := List.mem_append_right _ List.mem_cons_self
    rw [addCore_concat]
    by_cases hid : last.id = p.socket
    · rw [if_pos hid]
      refine h.growLast hcore hid fun c hc => ?_
      rcases hbehind last hlast c hc with hlt | ⟨-, hlt⟩
      · exact absurd hid (UInt32.ne_of_lt hlt)
      · exact hlt
    · rw [if_neg hid]
      have hlt : last.id < p.socket := by
        obtain ⟨c, hc⟩ := List.exists_mem_of_ne_nil _ (h.ordered last hlast).ne_nil
        rcases hbehind last hlast c hc with hlt | ⟨hsame, -⟩
        · exact hlt
        · exact absurd hsame hid
      -- the earlier sockets are below the last one
      refine h.addSocket hcore fun s hs => ?_
      rcases List.mem_append.1 hs with hs | hs
      · obtain ⟨-, -, hbelow⟩ := List.pairwise_append.1 h.sockets
        exact UInt32.lt_trans (hbelow s hs last List.mem_cons_self) hlt
      · rwa [List.mem_singleton.1 hs]

end Arranges

/-! ## The layout of a file tree -/

/-- Cores that come ascending are all added at their places. -/
theorem arranges_foldl_addCore {found : CoreTable} (hascending : Table.Ascending found)
    (hordered : ∀ e ∈ found, Core.IsOrdered ⟨e.1.core, e.2⟩) :
    Arranges (found.foldl addCore []) fun l s c => ∃ ls, (⟨s, c⟩, ls) ∈ found ∧ l ∈ ls := by
  induction found using List.reverseRecOn with
  | nil =>
    refine ⟨fun l s c => ?_, .nil, nofun⟩
    simp [Lists]
  | append_singleton found e ih =>
    obtain ⟨hfound, -, hbelow⟩ := List.pairwise_append.1 hascending
    obtain ⟨hcores, hcore⟩ := List.forall_mem_append.1 hordered
    obtain ⟨p, lcores⟩ := e
    rw [List.foldl_append]
    refine Arranges.congr ((ih hfound hcores).addCore (hcore _ List.mem_cons_self) ?_)
      fun l s c => ?_
    · rintro l s c ⟨ls, hls, -⟩
      exact hbelow _ hls _ List.mem_cons_self
    · simp only [List.mem_append, List.mem_singleton, or_and_right, exists_or]
      rw [or_comm]
      refine or_congr_right ?_
      constructor
      · rintro ⟨rfl, hl⟩
        exact ⟨_, rfl, hl⟩
      · rintro ⟨_, ⟨⟩, hl⟩
        exact ⟨rfl, hl⟩

/-- A layout has the lcores at the places at which the table groups them. -/
theorem Groups.arranges {found : CoreTable} {place : UInt32 → CorePlace → Prop}
    (h : Groups found place) :
    Arranges (found.foldl addCore []) fun l s c => place l ⟨s, c⟩ := by
  have hordered : ∀ e ∈ found, Core.IsOrdered ⟨e.1.core, e.2⟩ := by
    intro e he
    obtain ⟨hne, hlcores⟩ := h.ordered e.1 e.2 (h.ascending.find?_eq_some he)
    exact ⟨hne, hlcores⟩
  refine (arranges_foldl_addCore h.ascending hordered).congr fun l s c => ?_
  rw [← h.mem_iff]
  constructor
  · rintro ⟨ls, hls, hl⟩
    rw [h.ascending.find?_eq_some hls]
    exact hl
  · intro hl
    rcases hp : Table.find? ⟨s, c⟩ found with _ | ls
    · rw [hp] at hl
      cases hl
    · rw [hp] at hl
      exact ⟨ls, Table.mem_of_find? hp, hl⟩

theorem sysfsLayout_of_kernelMax {t : FileTree} {kernelMax : UInt32}
    (h : t.number? ["kernel_max"] = some kernelMax) :
    sysfsLayout t = .ok (((cpusUpTo kernelMax).foldl t.gather []).foldl addCore []) := by
  rw [sysfsLayout, h]

/-- The layout of the cpus that have a place: it lists these, each once and at its place, and all of
it is ascending and not empty. -/
structure Partitions (layout : List Socket) (place : UInt32 → UInt32 → UInt32 → Prop) : Prop extends
    Arranges layout place where
  once : (listedLcores layout).Nodup
  shown : ∀ s ∈ layout, s.lcores.Pairwise (· < ·)

/-- A socket without repetitions shows its lcores strictly ascending. -/
theorem pairwise_lcores {layout : List Socket} (h : (listedLcores layout).Nodup) {s : Socket}
    (hs : s ∈ layout) : s.lcores.Pairwise (· < ·) := by
  have hlisted : (s.cores.flatMap Core.lcores).Nodup := (List.nodup_flatMap.1 h).1 s hs
  have hnodup : s.lcores.Nodup := s.lcores_perm.nodup_iff.2 hlisted
  refine ((pairwise_mergeSort_lcores _).and hnodup).imp ?_
  rintro a b ⟨hle, hne⟩
  exact UInt32.lt_of_le_of_ne hle hne

theorem partitions_of_kernelMax {t : FileTree} {kernelMax : UInt32}
    (h : t.number? ["kernel_max"] = some kernelMax) :
    ∃ layout, sysfsLayout t = .ok layout ∧ Partitions layout fun cpu socket core =>
      cpu ≤ kernelMax ∧ t.Places cpu socket core := by
  have hmax : kernelMax.toNat + 1 ≤ UInt32.size := kernelMax.toNat_lt
  have harranges := (groups_foldl_gather t hmax).arranges
  have hnodup := harranges.nodup fun _ _ _ _ _ hp hp' => hp.2.unique hp'.2
  refine ⟨_, sysfsLayout_of_kernelMax h, harranges.congr fun l s c => ?_, hnodup, fun s hs => ?_⟩
  · rw [UInt32.le_iff_toNat_le, Nat.lt_succ_iff]
  · exact pairwise_lcores hnodup hs

/-- The layout that is read from a file tree is the one that has each cpu up to `kernel_max` that is
online once, in the core and on the socket that its files give, and no other lcore, with all of it
ascending and nothing empty. It is read whenever `kernel_max` holds a number; otherwise there is no
layout. -/
theorem sysfsLayout_partitions (t : FileTree) :
    (∀ layout, sysfsLayout t = .ok layout ↔ ∃ kernelMax, t.Holds ["kernel_max"] kernelMax ∧
      Partitions layout fun cpu socket core => cpu ≤ kernelMax ∧ t.Places cpu socket core) ∧
    ((∃ layout, sysfsLayout t = .ok layout) ↔ ∃ kernelMax, t.Holds ["kernel_max"] kernelMax) ∧
    (sysfsLayout t = .error (.layoutUnavailable ("cannot read " ++ t.root ++ "/kernel_max")) ↔
      ¬∃ kernelMax, t.Holds ["kernel_max"] kernelMax) := by
  simp only [← FileTree.number?_eq_some_iff]
  rcases hmax : t.number? ["kernel_max"] with _ | kernelMax
  · have herror : sysfsLayout t =
        .error (.layoutUnavailable ("cannot read " ++ t.root ++ "/kernel_max")) := by
      rw [sysfsLayout, hmax]
    simp [herror]
  · obtain ⟨layout, hlayout, hp⟩ := partitions_of_kernelMax hmax
    refine ⟨fun layout' => ?_, ?_, ?_⟩
    · constructor
      · intro h
        cases hlayout.symm.trans h
        exact ⟨kernelMax, rfl, hp⟩
      · rintro ⟨kernelMax', hsame, hp'⟩
        cases hsame
        rw [hlayout, hp.eq hp'.toArranges]
    · exact iff_of_true ⟨layout, hlayout⟩ ⟨kernelMax, rfl⟩
    · rw [hlayout]
      simp

/-- A file tree lists no lcore twice. -/
theorem nodup_sysfsLayout {t : FileTree} {layout : List Socket} (h : sysfsLayout t = .ok layout) :
    (listedLcores layout).Nodup := by
  rcases hmax : t.number? ["kernel_max"] with _ | kernelMax
  · rw [sysfsLayout, hmax] at h
    cases h
  · obtain ⟨layout', hlayout, hp⟩ := partitions_of_kernelMax hmax
    cases hlayout.symm.trans h
    exact hp.once

end WorkerBroker
