import WorkerBroker.Proofs.Polls
/-!
# Pruning

A read over all members unregisters secondaries that have not answered it, and nobody else. For this
it turns to each of them once more, to retire it, and what it finds then decides. Its moves take
nobody out of the registry but those whom it has found without a connection (`Service.sheds_move`),
and these it does take out (`Service.seenTo_of_prune`).

A query that is not answered leaves its member without a connection, if that was current. So there
are two kinds of secondaries that are kept without having answered. One is given another connection
while the read is under way. To the other one something was announced, a connection or that it will
be shut, and nobody is going to do it, since whoever would have was given up: its queries come to
nothing, but they leave it with the connection that it had (`Service.listing_leaves_behind`).
`Service.isSettled` says that there are no other members like this.

Whatever else happens meanwhile, this is what a read does (`Service.Prunes`). If nobody else changes
who is registered (`Service.IsQuiet`), it determines who is left (`Service.Remains`): two reads of
one registry with the same replies leave the same registry, and a read that everybody replies to
changes nothing. With that comes `Service.reads_prune_the_dead`.
-/

namespace WorkerBroker

/-! ## Who is not registered any more -/

/-- Nobody is registered who was not before, and whoever is not registered any more is one of
these. -/
structure Broker.Sheds {ω : Type} (b : Broker ω) (P : Ref → Prop) (b' : Broker ω) : Prop where
  subset : ∀ r ∈ b'.everyone, r ∈ b.everyone
  gone : ∀ r ∈ b.everyone, r ∉ b'.everyone → P r

namespace Broker.Sheds

variable {ω : Type} {a b b' : Broker ω} {P Q : Ref → Prop}

theorem of_registry (h : b'.registry = b.registry) : b.Sheds P b' := by
  have hsame : b'.everyone = b.everyone := by rw [everyone, h, everyone]
  refine ⟨fun r hr => hsame ▸ hr, fun r hr hno => absurd hr ?_⟩
  rwa [hsame] at hno

theorem mono (h : b.Sheds P b') (hpq : ∀ r, P r → Q r) : b.Sheds Q b' :=
  ⟨h.subset, fun r hr hno => hpq r (h.gone r hr hno)⟩

theorem trans (h : a.Sheds P b) (h' : b.Sheds P b') : a.Sheds P b' := by
  refine ⟨fun r hr => h.subset r (h'.subset r hr), fun r hr hno => ?_⟩
  by_cases hb : r ∈ b.everyone
  · exact h'.gone r hb hno
  · exact h.gone r hr hb

end Broker.Sheds

/-! ## Members that nobody registers meanwhile -/

/-- Nobody gives a member a connection in the course of these moves, and its connection is current,
or is not, throughout. -/
def IsUncontested {ω : Type} (a : Broker ω) (r : Ref) (under : List (Deed ω)) : Prop :=
  ∀ d ∈ under, ¬d.Installs r.number ∧
    (d.before.standing.IsSettled r.number ↔ a.standing.IsSettled r.number)

/-- In this move a call turns to a member to retire it. -/
def Deed.Retires {ω : Type} (e : Deed ω) (c : Nat) (r : Ref) : Prop :=
  ∃ n next, e.move = .serve n ∧ e.before.mover? e.move = some c ∧
    e.before.phase? c = some (.entering r .retire next)

/-- A call has turned to a member to retire it, and found it without a connection. -/
def Ref.IsCutOff {ω : Type} (r : Ref) (c : Nat) (under : List (Deed ω)) : Prop :=
  ∃ e ∈ under, e.Retires c r ∧ (e.before.member r.number).channel = none

/-- A call has turned to a member to retire it. If it found this without a connection, the member is
not registered in a later state. Unless somebody gives it one, it is without a connection if this was
current or there was none. -/
def Ref.IsSeenTo {ω : Type} (r : Ref) (c : Nat) (under : List (Deed ω)) (s : Broker ω) : Prop :=
  ∃ e ∈ under, e.Retires c r ∧ ((e.before.member r.number).channel = none → r ∉ s.everyone) ∧
    ((∀ f ∈ under, ¬f.Installs r.number) →
      ((e.before.member r.number).channel = none ↔ e.before.standing.IsSettled r.number))

theorem Ref.IsSeenTo.mono {ω : Type} {r : Ref} {c : Nat} {u under : List (Deed ω)} {s : Broker ω}
    (h : r.IsSeenTo c u s) (hu : u ⊆ under) : r.IsSeenTo c under s := by
  obtain ⟨e, he, hretires, hremoved, hiff⟩ := h
  exact ⟨e, hu he, hretires, hremoved, fun hno => hiff fun f hf => hno f (hu hf)⟩

namespace IsUncontested

variable {ω : Type} {a b : Broker ω} {r : Ref} {c : Nat} {under later : List (Deed ω)}

/-- A member that nobody registers or shuts meanwhile is cut off only if its connection was current,
or it had none. -/
theorem isSettled (h : IsUncontested a r under) (hcut : r.IsCutOff c under) :
    a.standing.IsSettled r.number := by
  obtain ⟨e, he, -, hch⟩ := hcut
  refine (h e he).2.1 (Standing.isSettled_of_none ?_)
  rwa [Broker.channel_standing]

/-- And if this was so, it is not registered once the read has seen to it. -/
theorem not_mem_everyone {s : Broker ω} (h : IsUncontested a r under)
    (hseen : r.IsSeenTo c under s) (hsettled : a.standing.IsSettled r.number) :
    r ∉ s.everyone := by
  obtain ⟨e, he, -, hremoved, hiff⟩ := hseen
  exact hremoved ((hiff fun f hf => (h f hf).1).2 ((h e he).2.2 hsettled))

theorem append (h : IsUncontested a r under) (h' : IsUncontested b r later)
    (hsame : b.standing.IsSettled r.number ↔ a.standing.IsSettled r.number) :
    IsUncontested a r (under ++ later) := by
  intro d hd
  rcases List.mem_append.1 hd with hd | hd
  · exact h d hd
  · exact ⟨(h' d hd).1, (h' d hd).2.trans hsame⟩

end IsUncontested

instance {ω : Type} (d : Deed ω) (n : Nat) : Decidable (d.Installs n) :=
  decidable_of_iff ((d.before.step d.move).any fun b' =>
      (b'.member n).channel ≠ none ∧ (b'.member n).channel ≠ (d.before.member n).channel) (by
    rw [Deed.Installs, Option.any_eq_true]
    simp)

instance {ω : Type} (a : Broker ω) (r : Ref) (under : List (Deed ω)) :
    Decidable (IsUncontested a r under) :=
  inferInstanceAs (Decidable (∀ d ∈ under, _ ∧ _))

namespace Service

open Broker Program

variable {asked : Nat → Service} {timeout c : Nat} {past under : List (Deed Upshot)}
  {a b b' : Broker Upshot} {op : Operation} {d e : Deed Upshot} {r : Ref} {q : Program Upshot}

/-- A member that is not registered is not registered again in a run. -/
theorem mem_everyone_of_run (ha : Run (fun _ => Starts asked) (fresh timeout) past a)
    (hr : Run (fun _ => Starts asked) a under b) (hg : a.standing.Genuine r)
    (h : r ∈ b.everyone) : r ∈ a.everyone := by
  induction hr with
  | nil => exact h
  | @snoc under b b' m hr hs hm ih =>
    have hall := (ha.append hr).snoc m hs hm
    have hb := (steady (ha.append hr)).1
    refine ih ((mem_everyone hb).2 ?_)
    exact registered_of_step hb (hr.genuine hg) hm ((mem_everyone (steady hall).1).1 h)

/-! ## The turns in which a read retires members -/

/-- The moves of a call that is new are made after what had happened before. -/
theorem after_of_mover (ha : Run (fun _ => Starts asked) (fresh timeout) past a)
    (hnew : a.phase? c = none) {u v : List (Deed Upshot)} (heq : past ++ under = u ++ e :: v)
    (hc : e.before.mover? e.move = some c) : ∃ u', u = past ++ u' ∧ under = u' ++ e :: v := by
  rcases List.append_eq_append_iff.1 heq with ⟨u', hu, hunder⟩ | ⟨w, hpast, hw⟩
  · exact ⟨u', hu, hunder⟩
  · rcases w with _ | ⟨f, w⟩
    · exact ⟨[], by simpa using hpast.symm, hw.symm⟩
    · obtain ⟨rfl, -⟩ := List.cons.inj hw
      have he : e ∈ past := by
        rw [hpast]
        exact List.mem_append_right _ List.mem_cons_self
      exact absurd hc (not_mover_of_new ha hnew he)

theorem mem_of_mover (ha : Run (fun _ => Starts asked) (fresh timeout) past a)
    (hnew : a.phase? c = none) (he : e ∈ past ++ under) (hc : e.before.mover? e.move = some c) :
    e ∈ under :=
  (List.mem_append.1 he).resolve_left fun he => not_mover_of_new ha hnew he hc

/-- Whoever is unplugged by a call that is new has no current connection from then on, if it is
given no other. -/
theorem not_current_of_unplugged (ha : Run (fun _ => Starts asked) (fresh timeout) past a)
    (hr : Run (fun _ => Starts asked) a under b) (hnew : a.phase? c = none) {n : Nat}
    (h : Unplugged (past ++ under) c n) (hno : ∀ d ∈ under, ¬d.Installs n) (l : Nat) :
    ¬b.Current n l := by
  obtain ⟨p, f, q, heq, hc, hcut⟩ := h
  obtain ⟨p', -, rfl⟩ := after_of_mover ha hnew heq hc
  obtain ⟨x, hx, hrest⟩ := hr.of_append
  obtain ⟨rfl, b', hm, hrest⟩ := hrest.of_cons
  have hdated := (standing_step hm).dated (ha.append hx).dated
  refine (hrest.not_current hdated (hcut b' hm) fun g hg => ?_).2.1 l
  exact hno g (List.mem_append_right _ (List.mem_cons_of_mem _ hg))

/-- A settled member without a current connection has none. -/
theorem channel_of_isSettled {n : Nat} (h : b.standing.IsSettled n) (hno : ∀ l, ¬b.Current n l) :
    (b.member n).channel = none := by
  rcases hch : (b.member n).channel with _ | ch
  · rfl
  · have hg := h ch (by rw [channel_standing]; exact hch)
    rw [generation_standing] at hg
    refine absurd ?_ (hno ch.link)
    rw [Current, hch, ← hg]

/-- When a read turns to a member to retire it, the member has not answered, so it has no connection
if its connection would be current and nobody has given it one meanwhile. -/
theorem channel_of_retires (ha : Run (fun _ => Starts asked) (fresh timeout) past a)
    (hr : Run (fun _ => Starts asked) a under b) (hnew : a.phase? c = none) (hop : op.IsRead)
    (hc : asked c = .operation op) (he : e ∈ under) (hretires : e.Retires c r)
    (hno : ∀ f ∈ under, ¬f.Installs r.number) (hsettled : e.before.standing.IsSettled r.number) :
    (e.before.member r.number).channel = none := by
  obtain ⟨n, next, -, -, hp⟩ := hretires
  obtain ⟨u, v, rfl, h₁, -⟩ := hr.cut he
  obtain ⟨hnone, -⟩ | ⟨p, hp', hpolling⟩ := polling (ha.append h₁) hop hc
  · cases hp.symm.trans hnone
  cases hp.symm.trans hp'
  obtain hstart | ⟨d, -, -, hpoll | ⟨outcomes, h⟩⟩ := hpolling.of_left rfl
  · rw [program_of_isRead hop] at hstart
    cases hstart
  · cases hpoll
  obtain ⟨steps, hpath, -⟩ := h.path
  have hwithin : Program.Within (IsPruning _) (IsRetiring _) (fun _ => True)
      (.wait (.enter r .retire) next) := (within_afterPoll op _ outcomes).leads hpath
  obtain ⟨p, hmem, hdead, hw⟩ := hwithin.1
  obtain rfl : r = p.1 := by
    injection hw
  obtain ⟨-, i, s, hi, ho⟩ := isDead_of_mem_probes hmem hdead
  obtain ⟨o, ho', hexchanged⟩ := h.asked i p.1 hi
  cases ho.symm.trans ho'
  have hunplugged : Unplugged (past ++ u) c p.1.number := by
    generalize eventsOf _ _ = events at hexchanged
    cases hexchanged with
    | served _ _ _ hcut => exact hcut s rfl
  refine channel_of_isSettled hsettled fun l => ?_
  exact not_current_of_unplugged ha h₁ hnew hunplugged
    (fun f hf => hno f (List.mem_append_left _ hf)) l

/-- A turn in which a member was to be retired has come to whether it had no connection. -/
theorem retires_of_made (hr : Run (fun _ => Starts asked) (fresh timeout) past b) {y : Bool}
    (h : Step.Made past c (.wait (.enter r .retire) y)) :
    ∃ e ∈ past, e.Retires c r ∧ (y = true ↔ (e.before.member r.number).channel = none) := by
  obtain ⟨e, he, n, hmove, hmover, ⟨next, hphase⟩, rfl⟩ := h
  refine ⟨e, he, ⟨n, next, hmove, hmover, hphase⟩, ?_⟩
  rw [hmove] at hmover
  obtain ⟨t, ht, rfl⟩ := Option.map_eq_some_iff.1 hmover
  obtain ⟨rest, hn⟩ := List.head?_eq_some_iff.1 ht
  obtain ⟨rfl, -⟩ := ((steady hr).2 e he).order.waitsAt hn hphase
  rcases hch : (e.before.member r.number).channel with _ | ch <;> simp [take, hch]

/-- When a member is struck off in a move, it is not registered afterwards. -/
theorem not_mem_everyone_of_strike (ha : Run (fun _ => Starts asked) (fresh timeout) past a)
    (hr : Run (fun _ => Starts asked) a under b) (he : e ∈ under) (hmove : e.move = .run c)
    {next : Act.Answer (.strike r) → Program Upshot}
    (hphase : e.before.phase? c = some (.running (.act (.strike r) next))) : r ∉ b.everyone := by
  obtain ⟨b', hm⟩ : ∃ b', e.before.step e.move = some b' := by
    rw [hmove]
    exact ⟨_, (Makes.runs hphase).step⟩
  obtain ⟨u, v, rfl, h₁, h₂, hrest⟩ := hr.around he hm
  obtain ⟨known, hregular, hgenuine⟩ := (steady (ha.append h₁)).1.of_phase hphase rfl
  have hg : e.before.standing.Genuine r := hgenuine r (hregular.2.1 r rfl)
  intro hr
  have hafter := mem_everyone_of_run (ha.append h₂) hrest ((standing_step hm).genuine hg) hr
  rw [mem_everyone (steady (ha.append h₂)).1] at hafter
  rw [hmove] at hm
  cases makes_of_step hm with
  | runs hp =>
    cases hphase.symm.trans hp
    have hregistry : (e.before.stepProgram c (.act (.strike r) next)).registry =
        (e.before.act (.strike r)).2.registry := rfl
    rw [hregistry, find?_strike] at hafter
    split at hafter
    · cases hafter
    · rename_i hno
      exact hno ⟨rfl, hafter⟩

/-- Who has not answered has been seen to when the read has gone through the answers. -/
theorem seenTo_of_prune (ha : Run (fun _ => Starts asked) (fresh timeout) past a)
    (hr : Run (fun _ => Starts asked) a under b) (hnew : a.phase? c = none) (hop : op.IsRead)
    (hc : asked c = .operation op) {refs : List Ref} {outcomes : List Outcome} {qs : List Probe}
    {steps : List Step} (hprune : (prune (probes refs outcomes)).Leads steps (.done qs))
    (hmade : ∀ e ∈ steps, e.Made (past ++ under) c) {i : Nat} {s : Silence}
    (hi : refs[i]? = some r) (ho : outcomes[i]? = some (.error s)) (hk : r.kind.isSecondary) :
    r.IsSeenTo c under b := by
  obtain ⟨hprobe, hdead⟩ := mem_probes_of_error hi ho hk
  obtain ⟨y, hretire, hstrike⟩ := mem_of_prune hprune hprobe hdead
  obtain ⟨e, he, hretires, hy⟩ := retires_of_made (ha.append hr) (hmade _ hretire)
  have hunder : e ∈ under := by
    obtain ⟨-, -, -, hmover, -⟩ := hretires
    exact mem_of_mover ha hnew he hmover
  refine ⟨e, hunder, hretires, fun hch => ?_, fun hno => ⟨fun hch => ?_, fun hsettled => ?_⟩⟩
  · obtain ⟨z, hz⟩ := hstrike (hy.2 hch)
    obtain ⟨f, hf, hmove, ⟨next, hphase⟩, -⟩ := hmade _ hz
    have hf' : f ∈ under := mem_of_mover ha hnew hf (by rw [hmove]; rfl)
    exact not_mem_everyone_of_strike ha hr hf' hmove hphase
  · refine Standing.isSettled_of_none ?_
    rwa [channel_standing]
  · exact channel_of_retires ha hr hnew hop hc hunder hretires hno hsettled

/-! ## The moves of a read -/

/-- When a member is struck off nobody else is. -/
theorem sheds_strike (hb : b.Steady) (h : b'.registry = (b.act (.strike r)).2.registry) :
    b.Sheds (· = r) b' := by
  simp only [Broker.act] at h
  split at h
  · rename_i hfind
    constructor <;> simp only [everyone, h]
    · intro p hp
      obtain ⟨e, he, rfl⟩ := List.mem_map.1 hp
      exact List.mem_map_of_mem (List.mem_filter.1 he).1
    · intro p hp hno
      by_contra hne
      have hfind' := (mem_everyone hb).1 hp
      have hmem := Table.mem_of_find? hfind'
      refine hno (List.mem_map.2 ⟨(p.id, p), List.mem_filter.2 ⟨hmem, ?_⟩, rfl⟩)
      refine decide_eq_true fun hid => hne ?_
      change p.id = r.id at hid
      rw [hid] at hfind'
      exact Option.some.inj (hfind'.symm.trans hfind)
  · exact .of_registry h

/-- A move of a read takes nobody out of the registry but a secondary that it has asked, that has
not answered, and that was found without a connection. -/
theorem sheds_move (hr : Run (fun _ => Starts asked) (fresh timeout) past b)
    (hop : op.IsRead) (hc : asked c = .operation op) (hd : d ∈ past) (hopens : d.Opens op c)
    (he : e ∈ past) (hmover : e.before.mover? e.move = some c)
    (hm : e.before.step e.move = some b') :
    e.before.Sheds (fun r => r ∈ d.before.polled op ∧ r.kind.isSecondary ∧ ¬r.Replies past c ∧
      r.IsCutOff c past) b' := by
  obtain hsame | ⟨k, act, next, hmove, hphase, hact⟩ := registry_step hm
  · exact .of_registry hsame
  rw [hmove] at hmover
  cases hmover
  by_cases hstart : Program.act act next = (Service.operation op).program
  · rw [program_of_isRead hop] at hstart
    cases hstart
    exact .of_registry hact
  obtain ⟨u, v, heq, h₁, h₂, hpoll | ⟨outcomes, h⟩⟩ :=
    at_deed hr hop hc hd hopens he (left?_of_phase hphase) hstart
  · cases hpoll
  obtain ⟨steps, hpath, hmade⟩ := h.path
  have hwithin : Program.Within (IsPruning _) (IsRetiring _) (fun _ => True)
      (.act act next) := (within_afterPoll op _ outcomes).leads hpath
  obtain rfl | ⟨p, hmem, hdead, rfl⟩ := hwithin.1
  · exact .of_registry hact
  obtain ⟨hk, i, s, hi, ho⟩ := isDead_of_mem_probes hmem hdead
  refine (sheds_strike (steady h₁).1 hact).mono ?_
  rintro _ rfl
  refine ⟨List.mem_of_getElem? hi, hk, fun hreplies => ?_, ?_⟩
  · -- nothing has been seen of the query since it came to nothing
    obtain ⟨l, raw, hlogged⟩ := logged_of_replies hr hop hc hd hopens hi hreplies
    obtain ⟨o, ho', hexchanged⟩ := h.asked i p.1 hi
    cases ho.symm.trans ho'
    have hmute : (Program.act (.strike p.1) next).Mute :=
      Within.leads (mute_afterPoll op _ outcomes) hpath
    have hevents := h₁.eventsOf_of_mute h₂ (left?_of_phase hphase) hmute i
    rw [← heq] at hevents
    have hnever : .ended ⟨c, i⟩ l (.ok raw) ∈ eventsOf ⟨c, i⟩ (log u) := by
      rw [← hevents]
      exact List.mem_filter.2 ⟨hlogged, by simp [Event.ticket?]⟩
    cases hexchanged.logged_iff.1 ⟨l, (List.mem_filter.1 hnever).1⟩
  · have hretire := mem_of_strike (fun qs => within_report [] qs) hpath
    obtain ⟨f, hf, hretires, hch⟩ := retires_of_made h₁ (hmade _ hretire)
    refine ⟨f, ?_, hretires, hch.1 rfl⟩
    rw [heq]
    exact List.mem_append_left _ hf

/-- A read does nothing but to look who is registered, to retire members and to strike them off. -/
theorem within_read (hop : op.IsRead) :
    (Service.operation op).program.Within (fun act => act = .roster ∨ ∃ q, act = .strike q)
      (fun w => ∀ q turn, w = .enter q turn → turn = .retire) fun _ => True := by
  rw [program_of_isRead hop]
  refine ⟨.inl rfl, fun refs => ⟨nofun, fun outcomes => ?_⟩⟩
  refine (within_afterPoll op _ outcomes).mono (fun act hact => ?_) fun w hw q turn heq => ?_
  · exact hact.imp id fun ⟨p, _, _, hp⟩ => ⟨p.1, hp⟩
  · obtain ⟨p, -, -, rfl⟩ := hw
    cases heq
    rfl

/-- So no member is given a connection in its moves, and nothing is announced. -/
theorem harmless_move (hr : Run (fun _ => Starts asked) (fresh timeout) past b)
    (hop : op.IsRead) (hc : asked c = .operation op) (he : e ∈ past)
    (hmover : e.before.mover? e.move = some c) (n : Nat) :
    ¬e.Installs n ∧ e.before.AnnouncesNothing e.move n := by
  obtain ⟨u, v, rfl, h₁, -⟩ := hr.cut he
  have hleft : ∀ {q : Program Upshot}, e.before.left? c = some q →
      q.Within (fun act => act = .roster ∨ ∃ q, act = .strike q)
        (fun w => ∀ q turn, w = .enter q turn → turn = .retire) fun _ => True := by
    intro q hq
    obtain ⟨steps, q', hq', hpath, -⟩ := path h₁ hq
    cases hq.symm.trans hq'
    rw [hc] at hpath
    exact (within_read hop).leads hpath
  obtain ⟨b, m⟩ := e
  constructor
  · rintro ⟨b', hm, hsome, hne⟩
    rw [← channel_standing, ← channel_standing] at hne
    rw [← channel_standing] at hsome
    have hshift := standing_step hm
    generalize b'.standing = s at hshift hsome hne
    cases hshift with
    | still | accepted => exact hne rfl
    | acted hp =>
      cases hmover
      obtain rfl | ⟨q, rfl⟩ := (hleft (left?_of_phase hp)).1
      · exact hne rfl
      · rw [standing_strike] at hne
        split at hne <;> exact hne rfl
    | @turned k t rest q turn next hn hp =>
      obtain rfl : t.call = c := Option.some.inj ((mover?_serve hn).symm.trans hmover)
      obtain rfl : turn = .retire := (hleft (left?_of_phase hp)).1 q turn rfl
      rcases hx : (b.take k .retire).1 with _ | _
      · rw [(take_retire_false hx).2] at hne
        exact hne rfl
      · rw [(take_retire_true hx).2, Standing.channel_change (by intro; rfl)] at hne
        exact hne rfl
    | cut k =>
      by_cases hk : n = k
      · rw [hk, Standing.member_disconnect_self] at hsome
        exact hsome rfl
      · rw [Standing.member_disconnect_ne _ hk] at hne
        exact hne rfl
  · intro q hq
    by_contra hsome
    obtain ⟨k, hk⟩ := Option.ne_none_iff_exists'.1 hsome
    obtain ⟨rfl, next, hp⟩ := Deed.advancer?_eq_some.1 hk
    cases hmover
    obtain h | ⟨_, h⟩ := (hleft (left?_of_phase hp)).1 <;> cases h

/-- A member stays settled while nothing is announced to it. -/
theorem isSettled_of_run (ha : Run (fun _ => Starts asked) (fresh timeout) past a)
    (hr : Run (fun _ => Starts asked) a under b) {n : Nat} (h : a.standing.IsSettled n)
    (hno : ∀ d ∈ under, d.before.AnnouncesNothing d.move n) : b.standing.IsSettled n := by
  induction hr with
  | nil => exact h
  | @snoc under b b' m hr hs hm ih =>
    have hsettled := ih fun d hd => hno d (List.mem_append_left _ hd)
    exact isSettled_step (steady (ha.append hr)).1.sound hsettled hm
      (hno _ (List.mem_append_right _ (List.mem_singleton_self _)))

/-- A settled member is uncontested under a read if nobody else announces anything to it, or gives it
a connection. -/
theorem isUncontested_of_isSettled (ha : Run (fun _ => Starts asked) (fresh timeout) past a)
    (hr : Run (fun _ => Starts asked) a under b) (hop : op.IsRead) (hc : asked c = .operation op)
    (h : a.standing.IsSettled r.number)
    (hothers : ∀ d ∈ under, d.before.mover? d.move ≠ some c →
      ¬d.Installs r.number ∧ d.before.AnnouncesNothing d.move r.number) :
    IsUncontested a r under := by
  have hall : ∀ d ∈ under,
      ¬d.Installs r.number ∧ d.before.AnnouncesNothing d.move r.number := by
    intro d hd
    by_cases hmover : d.before.mover? d.move = some c
    · exact harmless_move (ha.append hr) hop hc (List.mem_append_right _ hd) hmover _
    · exact hothers d hd hmover
  intro d hd
  obtain ⟨u, v, rfl, h₁, -⟩ := hr.cut hd
  refine ⟨(hall d hd).1, iff_of_true (isSettled_of_run ha h₁ h fun e he => ?_) h⟩
  exact (hall e (List.mem_append_left _ he)).2

/-! ## The last look of the listing -/

/-- After its queries the listing looks who is left, and comes to that. -/
theorem of_done_listing {refs : List Ref} {outcomes : List Outcome} {steps : List Step}
    {y : Upshot} (h : (Operation.listing.afterPoll refs outcomes).Leads steps (.done y)) :
    ∃ s qs now, steps = s ++ [.act .roster now] ∧
      (prune (probes refs outcomes)).Leads s (.done qs) ∧
      y = .result (.entries (now.map Entry.ofRef)) := by
  obtain ⟨s, qs, t, rfl, hprune, hreport⟩ := h.of_bind
  cases hreport with
  | @act _ _ now _ _ hl =>
    obtain ⟨rfl, hy⟩ := hl.of_done
    cases hy
    exact ⟨s, qs, now, rfl, hprune, rfl⟩

/-- In this move the listing looks who is left, after it has gone through the answers. -/
structure IsLastLook (e : Deed Upshot) (c : Nat) (past : List (Deed Upshot)) (refs : List Ref)
    (outcomes : List Outcome) : Prop where
  enumerates : e.Enumerates c
  polled : ∃ q, HasPolled .listing c past refs outcomes q
  pruned : ∃ steps qs, (prune (probes refs outcomes)).Leads steps (.done qs) ∧
    ∀ s ∈ steps, s.Made past c

/-- The move in which a listing comes to its end is its last look. -/
theorem isLastLook_of_end {m : Move Upshot}
    (hm : b.step m = some b') (hmover : b.mover? m = some c) {p : Phase Upshot}
    (hp : b.phase? c = some p) (hpolling : Polling .listing c past p) (hq : p.left? = some q)
    {step : Step} {y : Upshot} (hstep : q.Leads [step] (.done y))
    (hy : b'.left? c = some (.done y)) :
    y = .result (.entries (b.everyone.map Entry.ofRef)) ∧ ∃ d ∈ past, d.Opens .listing c ∧
      ∃ outcomes, IsLastLook ⟨b, m⟩ c past (d.before.polled .listing) outcomes := by
  obtain rfl | ⟨d, hd, ho, rfl | ⟨outcomes, h⟩⟩ := hpolling.of_left hq
  · -- the first look leads to the queries
    rw [program_of_isRead (.inl rfl)] at hstep
    cases hstep with
    | act hstep => cases hstep
  · -- the queries lead to the first of the dead, or to the last look
    cases hstep with
    | @wait _ _ outcomes _ _ hstep =>
      obtain ⟨s, qs, now, hs, -⟩ := of_done_listing hstep
      simp at hs
  obtain ⟨steps, hpath, hmade⟩ := h.path
  obtain ⟨s, qs, now, hs, hprune, -⟩ := of_done_listing (hpath.trans hstep)
  obtain ⟨rfl, hlast⟩ := List.append_inj' hs rfl
  cases hlast
  cases hstep with
  | @act _ next _ _ _ hstep =>
    obtain rfl : p = .running (.act .roster next) := by
      cases p <;> cases hq
      rfl
    obtain ⟨p', refs, hp', had⟩ := advance_of_mover hm hp hmover
    rw [left?_of_phase hp'] at hy
    cases had with
    | leaves => cases hy
    | acts =>
      have hend : (Program.act .roster next).Leads [.act .roster b.everyone] (.done y) := by
        rw [← Option.some.inj hy]
        exact .act (.refl _)
      obtain ⟨s', qs', now', hs', -, rfl⟩ := of_done_listing (hpath.trans hend)
      obtain ⟨-, hlast⟩ := List.append_inj' hs' rfl
      cases hlast
      exact ⟨rfl, d, hd, ho, outcomes, ⟨rfl, next, hp⟩, ⟨_, h⟩, steps, qs, hprune, hmade⟩

/-- A listing that has come to its end has looked who is left. -/
theorem exists_lastLook (hr : Run (fun _ => Starts asked) (fresh timeout) past b)
    (hc : asked c = .operation .listing) {y : Upshot} (hy : b.left? c = some (.done y)) :
    ∃ u e v, past = u ++ e :: v ∧ Run (fun _ => Starts asked) (fresh timeout) u e.before ∧
      y = .result (.entries (e.before.everyone.map Entry.ofRef)) ∧
      ∃ d ∈ u, d.Opens .listing c ∧ ∃ outcomes,
        IsLastLook e c u (d.before.polled .listing) outcomes := by
  have hop : Operation.listing.IsRead := .inl rfl
  induction hr with
  | nil => cases hy
  | @snoc past b b' m hr hs hm ih =>
    -- if the end had been reached before, then the look was before that
    by_cases hbefore : b.left? c = some (.done y)
    · obtain ⟨u, e, v, rfl, h⟩ := ih hbefore
      exact ⟨u, e, v ++ [⟨b, m⟩], by simp, h⟩
    have hmover : b.mover? m = some c := by
      by_contra hother
      rw [left?, phase?_step hm hother] at hy
      exact hbefore hy
    obtain ⟨hnone, -⟩ | ⟨p, hp, hpolling⟩ := polling hr hop hc
    · -- a call that has just been started is at its beginning
      obtain ⟨program, refs, brings, rfl⟩ := start_of_mover hm hnone hmover
      cases hmover
      obtain ⟨-, rfl, -⟩ := hs
      rw [hc, program_of_isRead hop] at hm
      cases hm
      rw [left?, phase?, List.getElem?_concat_length] at hy
      cases hy
    obtain ⟨q, hleft⟩ : ∃ q, p.left? = some q := by
      rcases hleft : p.left? with _ | q
      · rw [Phase.left?_eq_none.1 hleft] at hp
        rw [left?_of_phase (abandoned_step hm hp)] at hy
        cases hy
      · exact ⟨q, rfl⟩
    have hq := (left?_of_phase hp).trans hleft
    obtain ⟨-, hgone⟩ | hsame | ⟨step, q', hq', hstep, -⟩ := left?_step hr.allRead hm hq
    · rw [left?_of_phase hgone] at hy
      cases hy
    · exact absurd (hq.trans (hsame.symm.trans hy)) hbefore
    cases hq'.symm.trans hy
    obtain ⟨hshown, hlook⟩ := isLastLook_of_end hm hmover hp hpolling hleft hstep hy
    exact ⟨past, ⟨b, m⟩, [], rfl, hr, hshown, hlook⟩

/-! ## What a read is to who was registered -/

/-- A read has looked in this move who is registered, and this has come of it. -/
structure Prunes (op : Operation) (c : Nat) (under : List (Deed Upshot)) (d : Deed Upshot)
    (b : Broker Upshot) (x : Result) : Prop where
  /-- whoever it asks turns to its query, and one line is written if there is a connection for it -/
  asks : ∀ r ∈ d.before.polled op, ∃ e ∈ under, (∃ i, e.TurnsTo r.number ⟨c, i⟩ .status) ∧
    (∀ l, e.before.Usable r.number l → linesTo r.number c under = [(l, "status")]) ∧
    ((∀ l, ¬e.before.Usable r.number l) → linesTo r.number c under = [])
  /-- nothing is written to anybody else -/
  others : ∀ r, b.standing.Genuine r → r ∉ d.before.polled op → linesTo r.number c under = []
  /-- nobody is registered by it, and nobody unregistered but secondaries that have not answered and
  that it has found without a connection -/
  spares : ∀ e ∈ under, e.before.mover? e.move = some c → ∀ b', e.before.step e.move = some b' →
    e.before.Sheds (fun r => r ∈ d.before.everyone ∧ r.kind.isSecondary ∧ ¬r.Replies under c ∧
      r.IsCutOff c under) b'
  /-- it sees to each of those that have not answered -/
  removes : ∀ r ∈ d.before.everyone, r.kind.isSecondary → ¬r.Replies under c → r.IsSeenTo c under b
  /-- the listing shows who is left, by ascending id -/
  shows : op = .listing → ∃ e ∈ under, e.Enumerates c ∧
    x = .entries (e.before.everyone.map Entry.ofRef) ∧
    e.before.everyone.Pairwise (·.id < ·.id) ∧
    ∀ r ∈ d.before.everyone, r.kind.isSecondary → ¬r.Replies under c →
      r.IsSeenTo c under e.before

theorem replies_append (ha : Run (fun _ => Starts asked) (fresh timeout) past a)
    (hnew : a.phase? c = none) : r.Replies (past ++ under) c ↔ r.Replies under c := by
  constructor
  · rintro ⟨i, ⟨e, he, hturn⟩, l, raw, hlogged⟩
    refine ⟨i, ⟨e, mem_of_mover ha hnew he hturn.mover?, hturn⟩, l, raw, ?_⟩
    obtain ⟨f, hf, hevent⟩ := List.mem_filterMap.1 hlogged
    exact List.mem_filterMap.2 ⟨f, mem_of_mover ha hnew hf (mover?_of_ticket hevent rfl), hevent⟩
  · exact fun h => h.mono (List.subset_append_right ..)

theorem linesTo_append (ha : Run (fun _ => Starts asked) (fresh timeout) past a)
    (hnew : a.phase? c = none) (n : Nat) : linesTo n c (past ++ under) = linesTo n c under := by
  have hnone : linesTo n c past = [] := List.filterMap_eq_nil_iff.2 fun e he =>
    lineTo?_of_not_mover (not_mover_of_new ha hnew he)
  rw [linesTo, List.filterMap_append]
  exact (congrArg (· ++ _) hnone).trans (List.nil_append _)

/-- A read asks each secondary. -/
theorem mem_polled_of_isSecondary (hop : op.IsRead) (hr : r ∈ b.everyone)
    (hk : r.kind.isSecondary) : r ∈ b.polled op := by
  refine mem_polled.2 ⟨hr, ?_⟩
  obtain rfl | rfl := hop
  · exact hk
  · rfl

section

variable {x : Result}

theorem Reads.isSteady (h : Reads op a c under b x) : a.Steady ∧ b.Steady := by
  obtain ⟨asked, timeout, past, ha, hr, -⟩ := h.isRun
  exact ⟨(steady ha).1, (steady (ha.append hr)).1⟩

/-- What a read has asked, and what came of it. -/
theorem Reads.polled (h : Reads op a c under b x) (hop : op.IsRead) :
    ∃ asked timeout past, Run (fun _ => Starts asked) (fresh timeout) past a ∧
      Run (fun _ => Starts asked) a under b ∧ asked c = .operation op ∧
      ∃ d ∈ under, d.Opens op c ∧ ∃ outcomes,
        HasPolled op c (past ++ under) (d.before.polled op) outcomes (.done (.result x)) := by
  obtain ⟨asked, timeout, past, ha, hr, hc⟩ := h.isRun
  refine ⟨asked, timeout, past, ha, hr, hc, ?_⟩
  have hend := phase?_of_result? h.isOver
  obtain ⟨hnone, -⟩ | ⟨p, hp, hpolling⟩ := polling (ha.append hr) hop hc
  · cases hend.symm.trans hnone
  cases hend.symm.trans hp
  obtain hstart | ⟨d, hd, ho, hpoll | hpolled⟩ := hpolling.of_left rfl
  · rw [program_of_isRead hop] at hstart
    cases hstart
  · cases hpoll
  · have hmover : d.before.mover? d.move = some c := by
      rw [ho.1]
      rfl
    exact ⟨d, mem_of_mover ha h.isNew hd hmover, ho, hpolled⟩

/-- Each query of a read is turned to in one move, in which its line is written, if ever. -/
theorem turnsTo_of_polled (ha : Run (fun _ => Starts asked) (fresh timeout) past a)
    (hr : Run (fun _ => Starts asked) a under b) (hnew : a.phase? c = none) (hop : op.IsRead)
    (hc : asked c = .operation op) (hd : d ∈ under) (ho : d.Opens op c) {outcomes : List Outcome}
    (hpolled : HasPolled op c (past ++ under) (d.before.polled op) outcomes q)
    (hr' : r ∈ d.before.polled op) :
    ∃ e ∈ under, (∃ i, e.TurnsTo r.number ⟨c, i⟩ .status) ∧
      (∀ l, e.before.Usable r.number l → linesTo r.number c under = [(l, "status")]) ∧
      ((∀ l, ¬e.before.Usable r.number l) → linesTo r.number c under = []) := by
  obtain ⟨i, hi⟩ := List.getElem?_of_mem hr'
  obtain ⟨o, -, hexchanged⟩ := hpolled.asked i r hi
  have hlines := linesTo_of_polled (ha.append hr) hop hc (List.mem_append_right _ hd) ho hi
  rw [linesTo_append ha hnew] at hlines
  rw [hlines]
  generalize eventsOf _ _ = events at hexchanged
  cases hexchanged with
  | @served _ _ e _ _ heq hturn hspoken _ =>
    have he : e ∈ past ++ under := by
      rw [heq]
      exact List.mem_append_right _ List.mem_cons_self
    exact ⟨e, mem_of_mover ha hnew he hturn.mover?, ⟨i, hturn⟩, hspoken.lines⟩

/-- A listing comes to what it has seen in its last look. -/
theorem shows_of_listing (ha : Run (fun _ => Starts asked) (fresh timeout) past a)
    (hr : Run (fun _ => Starts asked) a under b) (hnew : a.phase? c = none)
    (hc : asked c = .operation .listing) (hd : d ∈ under) (ho : d.Opens .listing c)
    (hx : result? c b = some x) :
    ∃ e ∈ under, e.Enumerates c ∧ x = .entries (e.before.everyone.map Entry.ofRef) ∧
      e.before.everyone.Pairwise (·.id < ·.id) ∧
      ∀ r ∈ d.before.everyone, r.kind.isSecondary → ¬r.Replies under c →
        r.IsSeenTo c under e.before := by
  have hop : Operation.listing.IsRead := .inl rfl
  obtain ⟨u, e, v, heq, hrun, hshown, d', hd', ho', outcomes, hlook⟩ :=
    exists_lastLook (ha.append hr) hc (left?_of_phase (phase?_of_result? hx))
  cases hshown
  -- it has looked once only whom to ask
  have hmem : d' ∈ past ++ under := by
    rw [heq]
    exact List.mem_append_left _ hd'
  obtain rfl := eq_of_opens (ha.append hr) hop (List.mem_append_right _ hd) hmem ho ho'
  have hmover : e.before.mover? e.move = some c := by
    rw [hlook.enumerates.1]
    rfl
  obtain ⟨u', rfl, rfl⟩ := after_of_mover ha hnew heq hmover
  obtain ⟨y, hy, hlast⟩ := hr.of_append
  obtain ⟨rfl, -⟩ := hlast.of_cons
  refine ⟨e, List.mem_append_right _ List.mem_cons_self, hlook.enumerates, rfl,
    everyone_ascending (steady hrun).1, fun r hr' hk hno => ?_⟩
  obtain ⟨i, hi⟩ := List.getElem?_of_mem (mem_polled_of_isSecondary hop hr' hk)
  obtain ⟨q, hpolled⟩ := hlook.polled
  obtain ⟨s, hs⟩ := hpolled.silent hi fun hreplies =>
    hno (((replies_append ha hnew).1 hreplies).mono (List.subset_append_left ..))
  obtain ⟨steps, qs, hprune, hmade⟩ := hlook.pruned
  have hseen := seenTo_of_prune ha hy hnew hop hc hprune hmade hi hs hk
  exact hseen.mono (List.subset_append_left ..)

/-- A read looks once who is registered, and what it does to them comes of that. -/
theorem Reads.prunes (h : Reads op a c under b x) (hop : op.IsRead) :
    ∃ d ∈ under, d.Opens op c ∧ Prunes op c under d b x := by
  obtain ⟨asked, timeout, past, ha, hr, hc, d, hd, ho, outcomes, hpolled⟩ := h.polled hop
  have hall := ha.append hr
  have hd' : d ∈ past ++ under := List.mem_append_right _ hd
  refine ⟨d, hd, ho, ⟨fun r => turnsTo_of_polled ha hr h.isNew hop hc hd ho hpolled,
    fun r hg hno => ?_, fun e he hmover b' hm => ?_, fun r hr' hk hno => ?_, ?_⟩⟩
  · rw [← linesTo_append ha h.isNew]
    refine linesTo_of_not_polled hall hop hc hd' ho fun q hq hn => hno ?_
    obtain ⟨u, v, -, -, hrest⟩ := hr.cut hd
    have hsteady := (steady hall).2 d hd'
    have hq' := hrest.genuine (genuine_of_mem_everyone hsteady (mem_polled.1 hq).1)
    exact hq'.ext hg hn ▸ hq
  · refine (sheds_move hall hop hc hd' ho (List.mem_append_right _ he) hmover hm).mono ?_
    rintro r ⟨hasked, hk, hsilent, f, hf, hretires, hch⟩
    have hf' : f ∈ under := by
      obtain ⟨-, -, -, hmover, -⟩ := hretires
      exact mem_of_mover ha h.isNew hf hmover
    exact ⟨(mem_polled.1 hasked).1, hk, fun hreplies =>
      hsilent ((replies_append ha h.isNew).2 hreplies), f, hf', hretires, hch⟩
  · rw [← replies_append ha h.isNew] at hno
    obtain ⟨i, hi⟩ := List.getElem?_of_mem (mem_polled_of_isSecondary hop hr' hk)
    obtain ⟨s, hs⟩ := hpolled.silent hi hno
    obtain ⟨steps, hpath, hmade⟩ := hpolled.path
    obtain ⟨t, qs, t', rfl, hprune, -⟩ := hpath.of_bind
    exact seenTo_of_prune ha hr h.isNew hop hc hprune
      (fun e he => hmade e (List.mem_append_left _ he)) hi hs hk
  · rintro rfl
    exact shows_of_listing ha hr h.isNew hc hd ho h.isOver

/-! ## Reads that nobody disturbs -/

/-- Nobody but a call changes who is registered. -/
def KeepsRegistry (c : Nat) (under : List (Deed Upshot)) : Prop :=
  ∀ e ∈ under, e.before.mover? e.move ≠ some c → ∀ b', e.before.step e.move = some b' →
    b'.registry = e.before.registry

instance (c : Nat) (under : List (Deed Upshot)) : Decidable (KeepsRegistry c under) :=
  decidable_of_iff (∀ e ∈ under, e.before.mover? e.move ≠ some c →
      (e.before.step e.move).all fun b' => b'.registry = e.before.registry) (by
    simp [KeepsRegistry, Option.all_eq_true])

/-- Nobody but a call changes who is registered, and nobody registers or shuts a secondary that does
not answer. -/
structure IsQuiet (a : Broker Upshot) (c : Nat) (under : List (Deed Upshot)) : Prop where
  registry : KeepsRegistry c under
  uncontested : ∀ r ∈ a.everyone, r.kind.isSecondary → ¬r.Replies under c → IsUncontested a r under

/-- Who is left after a read: everyone who was there, but for secondaries that have not answered and
whose connection was current, if they had one; by ascending id. The listing shows them. -/
structure Remains (op : Operation) (a : Broker Upshot) (c : Nat) (under : List (Deed Upshot))
    (b : Broker Upshot) (x : Result) : Prop where
  mem_iff : ∀ r, r ∈ b.everyone ↔ r ∈ a.everyone ∧
    (r.kind.isSecondary → r.Replies under c ∨ ¬a.standing.IsSettled r.number)
  ascending : b.everyone.Pairwise (·.id < ·.id)
  shown : op = .listing → x = .entries (b.everyone.map Entry.ofRef)

/-- A secondary that is left, and whose connection was current if it had one, has replied. -/
theorem Remains.replies {r : Ref} (h : Remains op a c under b x) (hr : r ∈ b.everyone)
    (hk : r.kind.isSecondary) (hs : a.standing.IsSettled r.number) : r.Replies under c :=
  (((h.mem_iff r).1 hr).2 hk).resolve_right (not_not.2 hs)

/-- Whoever is not left has not replied. -/
theorem Remains.not_replies {r : Ref} (h : Remains op a c under b x) (hr : r ∈ a.everyone)
    (hgone : r ∉ b.everyone) : ¬r.Replies under c := fun hreplied =>
  hgone ((h.mem_iff r).2 ⟨hr, fun _ => .inl hreplied⟩)

/-- While nobody disturbs a read, nobody is registered, and nobody unregistered but secondaries that
were registered when it looked, have not answered and were found without a connection. -/
theorem Prunes.sheds (h : Prunes op c under d b x) (hq : IsQuiet a c under)
    {u : List (Deed Upshot)} {s : Broker Upshot} (hr : Run (fun _ => Starts asked) a u s)
    (hu : u ⊆ under) :
    a.Sheds (fun r => r ∈ d.before.everyone ∧ r.kind.isSecondary ∧ ¬r.Replies under c ∧
      r.IsCutOff c under) s := by
  induction hr with
  | nil => exact .of_registry rfl
  | @snoc u s s' m _ _ hm ih =>
    refine (ih fun e he => hu (List.mem_append_left _ he)).trans ?_
    have he := hu (List.mem_append_right _ (List.mem_singleton_self _))
    by_cases hc : s.mover? m = some c
    · exact h.spares _ he hc s' hm
    · exact .of_registry (hq.registry _ he hc s' hm)

/-- Members are the same if they are in the same order. -/
theorem everyone_eq (hb : b.Steady) (hb' : b'.Steady)
    (h : ∀ r, r ∈ b.everyone ↔ r ∈ b'.everyone) : b.everyone = b'.everyone := by
  have hnodup : ∀ {s : Broker Upshot}, s.Steady → s.everyone.Nodup := fun hs =>
    (everyone_ascending hs).imp fun hlt he => by
      rw [he] at hlt
      exact UInt32.lt_irrefl _ hlt
  have hperm := (List.perm_ext_iff_of_nodup (hnodup hb) (hnodup hb')).2 h
  exact hperm.eq_of_pairwise (fun _ _ _ _ hlt hgt => absurd hgt (UInt32.lt_asymm hlt))
    (everyone_ascending hb) (everyone_ascending hb')

/-- The registry is determined by who is registered. -/
theorem registry_eq (hb : b.Steady) (hb' : b'.Steady)
    (h : ∀ r, r ∈ b.everyone ↔ r ∈ b'.everyone) : b.registry = b'.registry := by
  have hkeyed : ∀ {s : Broker Upshot}, s.Steady →
      s.registry = s.everyone.map fun r => (r.id, r) := fun hs => by
    rw [everyone, List.map_map]
    refine (List.map_id _).symm.trans (List.map_congr_left fun e he => ?_)
    exact Prod.ext (hs.sound.keyed_of_mem he).1.symm rfl
  rw [hkeyed hb, hkeyed hb', everyone_eq hb hb' h]

/-- After a read that nobody disturbs, everyone is left who was registered before, but for the
secondaries that have not replied and whose connection was current. -/
theorem Reads.remains (h : Reads op a c under b x) (hop : op.IsRead) (hq : IsQuiet a c under) :
    Remains op a c under b x := by
  obtain ⟨asked, timeout, past, ha, hr, -⟩ := h.isRun
  obtain ⟨d, hd, -, hp⟩ := h.prunes hop
  have hall := (steady (ha.append hr)).1
  -- whoever is left at some time after the look is left at the end
  have hleft : ∀ {u : List (Deed Upshot)} {s : Broker Upshot},
      Run (fun _ => Starts asked) a u s → u ⊆ under →
      (∀ r ∈ d.before.everyone, r.kind.isSecondary → ¬r.Replies under c →
        r.IsSeenTo c under s) →
      ∀ r, r ∈ s.everyone ↔ r ∈ a.everyone ∧
        (r.kind.isSecondary → r.Replies under c ∨ ¬a.standing.IsSettled r.number) := by
    intro u s hs hu hremoves r
    obtain ⟨hless, hgone⟩ := hp.sheds hq hs hu
    constructor
    · refine fun hr' => ⟨hless r hr', fun hk => ?_⟩
      by_contra hno
      obtain ⟨hsilent, hsettled⟩ := not_or.1 hno
      obtain ⟨u', v, rfl, hbefore, -⟩ := hr.cut hd
      have hthere : r ∈ d.before.everyone := by
        by_contra hthere
        exact hthere ((hp.sheds hq hbefore (List.subset_append_left ..)).gone r (hless r hr')
          hthere).1
      exact (hq.uncontested r (hless r hr') hk hsilent).not_mem_everyone
        (hremoves r hthere hk hsilent) (not_not.1 hsettled) hr'
    · rintro ⟨hr', hreplies⟩
      by_contra hno
      obtain ⟨-, hk, hsilent, hcut⟩ := hgone r hr' hno
      exact (hreplies hk).elim hsilent fun hstuck =>
        hstuck ((hq.uncontested r hr' hk hsilent).isSettled hcut)
  have hmem := hleft hr (List.Subset.refl _) hp.removes
  refine ⟨hmem, everyone_ascending hall, fun hlisting => ?_⟩
  obtain ⟨e, he, -, rfl, -, hremoves⟩ := hp.shows hlisting
  obtain ⟨u, v, rfl, hbefore, -⟩ := hr.cut he
  have hmem' := hleft hbefore (List.subset_append_left ..) hremoves
  rw [everyone_eq (steady (ha.append hbefore)).1 hall fun r => (hmem' r).trans (hmem r).symm]

/-- The listing and the account of the lcores prune the dead. Each comes to its end in every fair run
in which it is not given up. It asks whoever is to be asked once, and sees to each secondary that has
not replied: if it finds this without a connection, it unregisters it, and nobody else. The listing
shows who is left. If nobody disturbs them, those are unregistered that have not replied and whose
connection was current, if they had one; two reads of the same members with the same replies leave the
same registry, whichever reads they are; and a read of those who are left, to which all secondaries
reply, changes nothing and shows the same. -/
theorem reads_prune_the_dead (ha : Run (fun _ => Starts asked) (fresh timeout) past a)
    (hop : op.IsRead) (hc : asked c = .operation op) (hnew : a.phase? c = none) :
    Yields asked a c fun under b y => ∃ x, y = .result x ∧
      (∃ d ∈ under, d.Opens op c ∧ Prunes op c under d b x) ∧
      (IsQuiet a c under → Remains op a c under b x ∧
        ∀ {op' a' c' under' b' x'}, Reads op' a' c' under' b' x' → op'.IsRead →
          IsQuiet a' c' under' →
          (a'.registry = a.registry →
            (∀ r ∈ a.everyone, r.kind.isSecondary →
              (r.Replies under' c' ↔ r.Replies under c) ∧ (¬r.Replies under c →
                (a'.standing.IsSettled r.number ↔ a.standing.IsSettled r.number))) →
            b'.registry = b.registry) ∧
          (a'.registry = b.registry → (∀ r ∈ b.everyone, r.kind.isSecondary →
            r.Replies under' c') → b'.registry = b.registry ∧
              (op = .listing → op' = .listing → x' = x))) := by
  refine yields ha fun {under b y} hr hend => ?_
  obtain ⟨x, rfl, hx⟩ := exists_result (ha.append hr) hc hend
  have h : Reads op a c under b x := ⟨⟨asked, timeout, past, ha, hr, hc⟩, hnew, hx⟩
  refine ⟨x, rfl, h.prunes hop, fun hq => ⟨h.remains hop hq, fun h' hop' hq' => ?_⟩⟩
  have hr := h.remains hop hq
  have hr' := h'.remains hop' hq'
  refine ⟨fun ha hsame => ?_, fun ha hall => ?_⟩
  · refine registry_eq h'.isSteady.2 h.isSteady.2 fun r => ?_
    rw [hr'.mem_iff, hr.mem_iff, everyone, ha]
    refine and_congr_right fun hr => forall_congr' fun hk => ?_
    obtain ⟨hreplies, hsettled⟩ := hsame r hr hk
    rw [hreplies]
    exact or_congr_right' fun hno => not_congr (hsettled hno)
  · have hregistry := registry_eq h'.isSteady.2 h.isSteady.2 fun r => by
      rw [hr'.mem_iff, everyone, ha]
      exact and_iff_left_of_imp fun hr hk => .inl (hall r hr hk)
    refine ⟨hregistry, fun hlisting hlisting' => ?_⟩
    rw [hr.shown hlisting, hr'.shown hlisting', everyone, hregistry]
    rfl

end

/-- Nobody disturbs a read while it is the only call that goes on, and workers are silent. -/
theorem isQuiet_of_isSilent {h : Endless (Starts asked) b}
    (ha : Run (fun _ => Starts asked) (fresh timeout) past a)
    (hr : Run (fun _ => Starts asked) a under b) (hop : op.IsRead) (hc : asked c = .operation op)
    (hs : h.IsSilent) (honly : ∀ k, b.IsActive k → k = c) (hkeeps : KeepsRegistry c under)
    (hfree : ∀ r ∈ a.everyone, IsUncontested a r under ∧ b.standing.IsSettled r.number ∧
      a.standing.IsSettled r.number) (n : Nat) : IsQuiet a c (under ++ h.past n) := by
  have hpasses : ∀ d ∈ h.past n, d.before.mover? d.move ≠ some c → ∃ time, d.move = .pass time := by
    intro d hd hother
    obtain ⟨i, -, rfl⟩ := List.mem_map.1 hd
    exact (hs.alone honly i).2.resolve_left hother
  refine ⟨fun d hd hother b' hm => ?_, fun r hmem _ _ => ?_⟩
  · rcases List.mem_append.1 hd with hd | hd
    · exact hkeeps d hd hother b' hm
    · obtain ⟨time, hpass⟩ := hpasses d hd hother
      rw [hpass] at hm
      cases hm
      rfl
  · obtain ⟨huncontested, hb, ha'⟩ := hfree r hmem
    refine huncontested.append (isUncontested_of_isSettled (ha.append hr) (h.run n) hop hc hb
      fun d hd hother => ?_) (iff_of_true hb ha')
    obtain ⟨time, hpass⟩ := hpasses d hd hother
    constructor
    · rintro ⟨b', hm, -, hne⟩
      rw [hpass] at hm
      cases hm
      exact hne rfl
    · rintro q -
      rw [Deed.advancer?, hpass]

/-- Two forwarders connect, and are listed twice. -/
def listedTwice : Nat → Service
  | 2 | 3 => .operation .listing
  | l => .operation (.registerSecondary l)

/-- Two forwarders connect, and their lcores are accounted for. -/
def usageRead : Nat → Service
  | 2 => .operation .cpuUsage
  | l => .operation (.registerSecondary l)

/-- Both are asked. The first worker answers with an error, and the second one ends its stream. -/
def oneHangsUp : List (Option (Move Upshot)) :=
  bothAsked ++
    ([some (.signal 0
        (.bytes "\x7b\"results\": [\x7b\"result\": \"error\"\x7d]\x7d".toUTF8.toList)),
      some (.receive 2 0), some (.signal 1 .ended), some (.receive 2 1), some (.run 2),
      some (.serve 1), some (.run 2), some (.run 2)] : List (Option (Move Upshot)))

/-- The worker that is left is asked again, and answers. -/
def askedAgain : List (Option (Move Upshot)) :=
  [none, some (.run 3), some (.run 3), some (.serve 0),
    some (.signal 0 (.bytes "\x7b\x7d".toUTF8.toList)), some (.receive 3 0), some (.run 3),
    some (.run 3)]

/-- A call comes to a result, these are registered before and those afterwards, and nobody disturbs
it. -/
def leavesQuietly (c : Nat) (before after : List Ref) (a : Broker Upshot)
    (s : List (Deed Upshot) × Broker Upshot) : Bool :=
  (a.phase? c).isNone ∧ (result? c s.2).isSome ∧ a.everyone = before ∧ s.2.everyone = after ∧
    KeepsRegistry c s.1 ∧ ∀ r ∈ before, IsUncontested a r s.1 ∧ a.standing.IsSettled r.number

/-- A call goes on and nothing else does, it has heard nothing, and nobody has disturbed it. -/
def waitsQuietly (c : Nat) (a : Broker Upshot) (s : List (Deed Upshot) × Broker Upshot) : Bool :=
  (s.2.left? c).isSome ∧ (∀ k ∈ List.range s.2.calls.length, s.2.IsActive k → k = c) ∧
    hearsNothing c (log s.1) ∧ KeepsRegistry c s.1 ∧
    ∀ r ∈ a.everyone, IsUncontested a r s.1 ∧ s.2.standing.IsSettled r.number ∧
      a.standing.IsSettled r.number

theorem reads_of_leavesQuietly (op : Operation) {before after : List Ref}
    (ha : Run (fun _ => Starts asked) (fresh timeout) past a)
    (hr : Run (fun _ => Starts asked) a under b) (hc : asked c = .operation op)
    (h : leavesQuietly c before after a (under, b)) :
    ∃ x, Reads op a c under b x ∧ IsQuiet a c under ∧ a.everyone = before ∧ b.everyone = after := by
  obtain ⟨hnew, hover, hbefore, hafter, hregistry, hfree⟩ := of_decide_eq_true h
  obtain ⟨x, hx⟩ := Option.isSome_iff_exists.1 hover
  refine ⟨x, ⟨⟨asked, timeout, past, ha, hr, hc⟩, Option.isNone_iff_eq_none.1 hnew, hx⟩,
    ⟨hregistry, fun r hr _ _ => (hfree r ?_).1⟩, hbefore, hafter⟩
  rwa [← hbefore]

/-- The worker that answers with an error stays, and the one that ends its stream is unregistered,
by the listing as well as by the account. The next listing shows the same. If both are silent for
ever, both are unregistered in the end. -/
theorem reads_prune_the_dead_when_one_hangs_up :
    (∃ a b b₂ a' b' under under₂ under' x x₂ x', Reads .listing a 2 under b x ∧
      Reads .listing b 3 under₂ b₂ x₂ ∧ Reads .cpuUsage a' 2 under' b' x' ∧
      a.everyone = [⟨0, .nfv, 1⟩, ⟨1, .nfv, 2⟩] ∧ b.everyone = [⟨0, .nfv, 1⟩] ∧
      Ref.Replies ⟨0, .nfv, 1⟩ under 2 ∧ ¬Ref.Replies ⟨1, .nfv, 2⟩ under 2 ∧
      (∃ d ∈ under, d.Opens .listing 2 ∧ Prunes .listing 2 under d b x) ∧
      b'.registry = b.registry ∧ b₂.registry = b.registry ∧ x₂ = x) ∧
    ∃ past a under b, Run (fun _ => Starts listedTwice) (fresh 5) past a ∧
      Run (fun _ => Starts listedTwice) a under b ∧
      a.everyone = [⟨0, .nfv, 1⟩, ⟨1, .nfv, 2⟩] ∧
      ∃ (h : Endless (Starts listedTwice) b) (n : Nat), (h.state n).everyone = [] := by
  have hlisted : (enact listedTwice twoNfvs [] (fresh 5)).any fun s =>
      ((enact listedTwice (oneHangsUp ++ [some (.run 2)]) [] s.2).any fun s₁ =>
        leavesQuietly 2 [⟨0, .nfv, 1⟩, ⟨1, .nfv, 2⟩] [⟨0, .nfv, 1⟩] s.2 s₁ ∧
          (enact listedTwice askedAgain [] s₁.2).any
            (leavesQuietly 3 [⟨0, .nfv, 1⟩] [⟨0, .nfv, 1⟩] s₁.2)) ∧
      (enact listedTwice bothAsked [] s.2).any (waitsQuietly 2 s.2) := by
    decide +kernel
  have haccounted : (enact usageRead twoNfvs [] (fresh 5)).any fun s =>
      (enact usageRead oneHangsUp [] s.2).any
        (leavesQuietly 2 [⟨0, .nfv, 1⟩, ⟨1, .nfv, 2⟩] [⟨0, .nfv, 1⟩] s.2) := by
    decide +kernel
  obtain ⟨past, a, ha, h⟩ := exists_run_after hlisted
  obtain ⟨h, hwaits⟩ := of_decide_eq_true h
  obtain ⟨under, b, hb, h⟩ := exists_run_after h
  obtain ⟨hfirst, h⟩ := of_decide_eq_true h
  obtain ⟨under₂, b₂, hb₂, hsecond⟩ := exists_run_after h
  obtain ⟨past', a', ha', h⟩ := exists_run_after haccounted
  obtain ⟨under', b', hb', hthird⟩ := exists_run_after h
  obtain ⟨x, hread, hquiet, hbefore, hafter⟩ :=
    reads_of_leavesQuietly .listing ha hb rfl hfirst
  obtain ⟨x₂, hread₂, hquiet₂, hbefore₂, hafter₂⟩ :=
    reads_of_leavesQuietly .listing (ha.append hb) hb₂ rfl hsecond
  obtain ⟨x', hread', hquiet', hbefore', hafter'⟩ :=
    reads_of_leavesQuietly .cpuUsage ha' hb' rfl hthird
  have hyields := reads_prune_the_dead (c := 2) ha (.inl rfl) rfl hread.isNew
  obtain ⟨_, ⟨⟩, hprunes, hremains⟩ := hyields.tells hb (phase?_of_result? hread.isOver)
  obtain ⟨hr, hothers⟩ := hremains hquiet
  obtain ⟨_, ⟨⟩, -, hremains₂⟩ :=
    (reads_prune_the_dead (c := 3) (ha.append hb) (.inl rfl) rfl hread₂.isNew).tells hb₂
      (phase?_of_result? hread₂.isOver)
  obtain ⟨_, ⟨⟩, -, hremains'⟩ :=
    (reads_prune_the_dead (c := 2) ha' (.inr rfl) rfl hread'.isNew).tells hb'
      (phase?_of_result? hread'.isOver)
  obtain ⟨hnew, hover, -, -, -, hfree⟩ := of_decide_eq_true hfirst
  obtain ⟨-, -, -, -, -, hfree₂⟩ := of_decide_eq_true hsecond
  obtain ⟨-, -, -, -, -, hfree'⟩ := of_decide_eq_true hthird
  -- who is left afterwards has replied, and who is not has not
  have hreplies : Ref.Replies ⟨0, .nfv, 1⟩ under 2 :=
    hr.replies (by rw [hafter]; decide) rfl (hfree _ (by decide)).2
  have hreplies₂ : Ref.Replies ⟨0, .nfv, 1⟩ under₂ 3 :=
    (hremains₂ hquiet₂).1.replies (by rw [hafter₂]; decide) rfl (hfree₂ _ (by decide)).2
  have hreplies' : Ref.Replies ⟨0, .nfv, 1⟩ under' 2 :=
    (hremains' hquiet').1.replies (by rw [hafter']; decide) rfl (hfree' _ (by decide)).2
  have hsilent : ¬Ref.Replies ⟨1, .nfv, 2⟩ under 2 :=
    hr.not_replies (by rw [hbefore]; decide) (by rw [hafter]; decide)
  have hsilent' : ¬Ref.Replies ⟨1, .nfv, 2⟩ under' 2 :=
    (hremains' hquiet').1.not_replies (by rw [hbefore']; decide) (by rw [hafter']; decide)
  obtain ⟨hregistry₂, hresult⟩ := (hothers hread₂ (.inl rfl) hquiet₂).2 rfl fun r hmem _ => by
    rw [hafter] at hmem
    obtain rfl := List.mem_singleton.1 hmem
    exact hreplies₂
  have hregistry : a'.registry = a.registry :=
    registry_eq hread'.isSteady.1 hread.isSteady.1 fun r => by rw [hbefore, hbefore']
  have hregistry' := (hothers hread' (.inr rfl) hquiet').1 hregistry fun r hmem _ => by
    rw [hbefore] at hmem
    refine ⟨?_, fun _ => iff_of_true (hfree' r hmem).2 (hfree r hmem).2⟩
    rcases List.mem_cons.1 hmem with rfl | hmem
    · exact iff_of_true hreplies' hreplies
    · obtain rfl := List.mem_singleton.1 hmem
      exact iff_of_false hsilent' hsilent
  refine ⟨⟨a, b, b₂, a', b', under, under₂, under', x, x₂, x', hread, hread₂, hread', hbefore,
    hafter, hreplies, hsilent, hprunes, hregistry', hregistry₂, hresult rfl rfl⟩, ?_⟩
  obtain ⟨under₃, b₃, hb₃, hwaiting⟩ := exists_run_after hwaits
  obtain ⟨hgoes, honly, hunheard, hkeeps, hfree₃⟩ := of_decide_eq_true hwaiting
  have honly : ∀ k, b₃.IsActive k → k = 2 := fun k hk =>
    honly k (List.mem_range.2 hk.lt_length) hk
  obtain ⟨h, hs⟩ := exists_silent listedTwice b₃
  obtain ⟨n, _, -, _, -, -, hremains₃⟩ := hyields.comes hb₃ hgoes hs.toIsFair (hs.kept 2)
  have hquiet₃ := isQuiet_of_isSilent ha hb₃ (.inl rfl) rfl hs honly hkeeps hfree₃ n
  refine ⟨past, a, under₃, b₃, ha, hb₃, hbefore, h, n, List.eq_nil_iff_forall_not_mem.2 ?_⟩
  intro r hmem
  have hthere := (((hremains₃ hquiet₃).1.mem_iff r).1 hmem).1
  have hk : ∀ q ∈ ([⟨0, .nfv, 1⟩, ⟨1, .nfv, 2⟩] : List Ref), q.kind.isSecondary := by decide
  obtain ⟨raw, hheard⟩ := ((hremains₃ hquiet₃).1.replies hmem (hk r (hbefore ▸ hthere))
    (hfree₃ r hthere).2.2).hasHeard
  exact hs.not_hasHeard (not_hasHeard hunheard raw) n hheard

/-- The member that should have been shut is listed, by nobody but this call, and while nothing else
goes on and nobody connects. It does not answer, and yet the listing shows it, and it is registered
still. -/
theorem listing_leaves_behind :
    ∃ past a under b, Run (fun _ => Starts (closeGivenUp .listing)) (fresh 5) past a ∧
      Run (fun _ => Starts (closeGivenUp .listing)) a under b ∧
      a.phase? 3 = none ∧ (∀ k, ¬a.IsActive k) ∧ KeepsRegistry 3 under ∧
      (∀ d ∈ under, ¬d.Installs 0) ∧ a.everyone = [⟨0, .nfv, 1⟩] ∧
      ¬Ref.Replies ⟨0, .nfv, 1⟩ under 3 ∧
      (result? 3 b).bind Result.entries? = some [⟨.nfv, some 1⟩] ∧ b.registry = a.registry := by
  obtain ⟨past, a, ha, hnew, hidle, hthere, h⟩ :
      ∃ past a, Run (fun _ => Starts (closeGivenUp .listing)) (fresh 5) past a ∧
        (a.phase? 3).isNone ∧ (∀ k ∈ List.range a.calls.length, ¬a.IsActive k) ∧
        a.everyone = [⟨0, .nfv, 1⟩] ∧
        (enact (closeGivenUp .listing)
            [none, some (.run 3), some (.run 3), some (.serve 0), some (.run 3), some (.serve 0),
              some (.run 3), some (.run 3)] [] a).any fun s =>
          KeepsRegistry 3 s.1 ∧ (∀ d ∈ s.1, ¬d.Installs 0) ∧ hearsNothing 3 (log s.1) ∧
            (result? 3 s.2).bind Result.entries? = some [⟨.nfv, some 1⟩] ∧
            s.2.registry = a.registry :=
    exists_run_of_enact _ shutNotDone (by decide +kernel)
  obtain ⟨under, b, hb, h⟩ := exists_run_after h
  obtain ⟨hkeeps, hinstalls, hunheard, hresult, hsame⟩ := of_decide_eq_true h
  refine ⟨past, a, under, b, ha, hb, Option.isNone_iff_eq_none.1 hnew,
    fun k hk => hidle k (List.mem_range.2 hk.lt_length) hk, hkeeps, hinstalls, hthere,
    fun hreplied => ?_, hresult, hsame⟩
  obtain ⟨raw, hheard⟩ := hreplied.hasHeard
  exact not_hasHeard hunheard raw hheard

end Service

end WorkerBroker
