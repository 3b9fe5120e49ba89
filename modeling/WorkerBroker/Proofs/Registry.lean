import WorkerBroker.Proofs.Services
/-!
# What the registry holds

Under its own id each member is registered, the primary under the one id that is kept for it, and
secondaries under all others (`Broker.HasProperRegistry`). This is a consequence of what every move keeps
(`Broker.Steady`), so it holds in every state that services can lead to, whatever fresh connections
say they are.

It is what finding members and listing them rely on: the primary is found by its id alone, and the
listing shows each id once (`Service.registry_isProper`).
-/

namespace WorkerBroker

/-- A secondary is of one of four kinds. -/
def secondaryKinds : List WorkerKind := [.nfv, .vf, .mirror, .pcap]

/-- In order, and under each key a member that has this id; the primary alone has its id. -/
structure Broker.HasProperRegistry {ω : Type} (b : Broker ω) : Prop where
  ascending : Table.Ascending b.registry
  keyed : ∀ e ∈ b.registry, e.2.id = e.1 ∧ (b.member e.2.number).id = e.1
  kind : ∀ e ∈ b.registry, (b.member e.2.number).kind = e.2.kind
  primary : ∀ e ∈ b.registry, e.1 = primaryId → e.2.kind = .primary
  secondary : ∀ e ∈ b.registry, e.1 ≠ primaryId → e.2.kind ∈ secondaryKinds

/-- A listing that shows no member under the id of the primary, and none twice. -/
structure IsListing (entries : List Entry) : Prop where
  named : ∀ e ∈ entries, e.clientId ≠ some primaryId
  nodup : (entries.map Entry.clientId).Nodup

theorem WorkerKind.mem_secondaryKinds {kind : WorkerKind} (h : kind ≠ .primary) :
    kind ∈ secondaryKinds := by
  cases kind with
  | primary => exact absurd rfl h
  | _ => decide

namespace Broker.Steady

variable {ω : Type} {b : Broker ω}

theorem hasProperRegistry (h : b.Steady) : b.HasProperRegistry := by
  have hkeyed : ∀ e ∈ b.registry, e.2.id = e.1 ∧ b.standing.Genuine e.2 := fun e he =>
    h.sound.keyed_of_mem he
  refine ⟨h.sound.ascending, fun e he => ?_, fun e he => ?_, fun e he hk => ?_, fun e he hk => ?_⟩
  · obtain ⟨hid, -, -, hg⟩ := hkeyed e he
    rw [member_standing] at hg
    exact ⟨hid, hg.trans hid⟩
  · obtain ⟨-, -, hg, -⟩ := hkeyed e he
    rw [member_standing] at hg
    exact hg
  · obtain ⟨hid, hg⟩ := hkeyed e he
    exact (h.sound.primary_iff hg).2 (hid.trans hk)
  · obtain ⟨hid, hg⟩ := hkeyed e he
    -- a primary has the id of the primary, and that is the key
    refine WorkerKind.mem_secondaryKinds fun hkind => hk ?_
    rw [← hid]
    exact (h.sound.primary_iff hg).1 hkind

end Broker.Steady

namespace Broker.HasProperRegistry

variable {ω : Type} {b : Broker ω}

/-- What the listing shows of a member under a key. -/
theorem clientId_ofRef (h : b.HasProperRegistry) {e : UInt32 × Ref} (he : e ∈ b.registry) :
    (Entry.ofRef e.2).clientId = if e.1 = primaryId then none else some e.1 := by
  obtain ⟨hid, -⟩ := h.keyed e he
  by_cases hk : e.1 = primaryId
  · rw [if_pos hk, Entry.ofRef, h.primary e he hk]
    rfl
  · have hs : e.2.kind.isSecondary := by
      have hmem := h.secondary e he hk
      revert hmem
      cases e.2.kind <;> decide
    rw [if_neg hk, Entry.ofRef, hs, hid]
    rfl

/-- Everyone who is registered makes a listing. -/
theorem isListing (h : b.HasProperRegistry) :
    IsListing ((b.registry.map Prod.snd).map Entry.ofRef) := by
  constructor
  · intro entry hentry
    rw [List.map_map] at hentry
    obtain ⟨e, he, rfl⟩ := List.mem_map.1 hentry
    rw [Function.comp_apply, h.clientId_ofRef he]
    split
    · exact nofun
    · rename_i hk
      exact fun hsome => hk (Option.some.inj hsome)
  · rw [List.map_map, List.map_map]
    refine List.pairwise_map.2 (h.ascending.imp_of_mem fun {e e'} he he' hlt => ?_)
    simp only [Function.comp_apply]
    rw [h.clientId_ofRef he, h.clientId_ofRef he']
    -- keys that ascend are different, and at most one of them is shown as none
    have hne : e.1 ≠ e'.1 := fun heq => absurd hlt (heq ▸ Std.Irrefl.irrefl (r := (· < ·)) _)
    by_cases hk : e.1 = primaryId
    · rw [if_pos hk, if_neg fun hk' => hne (hk.trans hk'.symm)]
      exact nofun
    · rw [if_neg hk]
      split
      · exact nofun
      · exact fun hsome => hne (Option.some.inj hsome)

end Broker.HasProperRegistry

/-! ## Finding and listing -/

namespace Program

variable {steps : List Step}

/-- Whoever is found as the primary is of that kind. -/
theorem kind_of_primary {r : Ref} (h : Program.primary.Leads steps (.done (.ok r)))
    (hs : ∀ e ∈ steps, e.IsPlausible) : r.kind = .primary := by
  cases h with
  | @act _ _ found _ _ h =>
    have hfound : Act.Plausible (.find primaryId) found := hs _ List.mem_cons_self
    rcases found with _ | r'
    · cases h
    · obtain ⟨-, hr⟩ := h.of_done
      cases hr
      obtain ⟨hid, hproper⟩ := hfound r rfl
      exact hproper.2 rfl

/-- Whoever is found as a secondary is of the kind that was asked for, and that is no primary. -/
theorem kind_of_secondary {kind : WorkerKind} {id : UInt32} {r : Ref}
    (h : (Program.secondary kind id).Leads steps (.done (.ok r)))
    (hs : ∀ e ∈ steps, e.IsPlausible) :
    r.kind = kind ∧ r.id = id ∧ kind.isSecondary ∧ id ≠ primaryId := by
  cases h with
  | @act _ _ found _ _ h =>
    have hfound : Act.Plausible (.find id) found := hs _ List.mem_cons_self
    rcases found with _ | r'
    · cases h
    · obtain ⟨hid, hproper⟩ := hfound r' rfl
      change Program.Leads (if _ then _ else _) _ _ at h
      split at h
      · rename_i hk
        obtain ⟨-, hr⟩ := h.of_done
        cases hr
        simp only [Bool.and_eq_true, decide_eq_true_eq] at hk
        refine ⟨hk.1, hid, hk.2, fun hprimary => ?_⟩
        rw [← hk.1, hproper.2 hprimary] at hk
        cases hk.2
      · obtain ⟨-, hr⟩ := h.of_done
        cases hr

/-- A listing shows who is registered at its end. -/
theorem entries_of_listing {entries : List Entry}
    (h : listing.Leads steps (.done entries)) :
    ∃ refs, .act .roster refs ∈ steps ∧ entries = refs.map Entry.ofRef := by
  -- the roster is read twice, before the sweep and after it; what is shown is the second
  obtain ⟨_, _, _, rfl, -, h⟩ := Leads.of_bind h
  obtain ⟨_, _, _, rfl, -, h⟩ := Leads.of_bind h
  obtain ⟨_, refs, _, rfl, hroster, h⟩ := Leads.of_bind h
  obtain ⟨rfl, hentries⟩ := h.of_done
  cases hentries
  cases hroster with
  | @act _ _ found _ _ hroster =>
    obtain ⟨rfl, hfound⟩ := hroster.of_done
    cases hfound
    exact ⟨refs, by simp, rfl⟩

end Program

namespace Service

open Broker

variable {asked : Nat → Service} {timeout c : Nat} {past : List (Deed Upshot)} {b : Broker Upshot}

/-- What has been listed is who was registered at some time. -/
theorem isListing_of_leads (hr : Run (fun _ => Starts asked) (fresh timeout) past b)
    {steps : List Step} {entries : List Entry}
    (h : Program.listing.Leads steps (.done entries)) (hmade : ∀ e ∈ steps, e.Made past c) :
    IsListing entries := by
  obtain ⟨refs, hmem, rfl⟩ := Program.entries_of_listing h
  obtain ⟨d, hd, -, -, hroster⟩ := hmade _ hmem
  obtain rfl : d.before.registry.map Prod.snd = refs := hroster
  exact ((steady hr).2 d hd).hasProperRegistry.isListing

/-- A request for the listing is answered with one. -/
theorem handle_listing (layout : List Socket) {request : Request}
    (hm : request.method = .get) (hp : request.target.segments = ["v1", "processes"]) :
    Gateway.handle layout request =
      (Program.listing.bind fun entries => .done (.json (arrayText (entries.map Entry.chars)))).bind
        .done := by
  simp [Gateway.handle, hm, hp, routes, errandFor?, Gateway.attend, Errand.decode, Gateway.perform]

/-- What a call that is over has come to is the end of its program. -/
theorem path_of_finished (hr : Run (fun _ => Starts asked) (fresh timeout) past b) {x : Upshot}
    (hx : b.phase? c = some (.finished x)) :
    ∃ steps, (asked c).program.Leads steps (.done x) ∧ ∀ e ∈ steps, e.Made past c := by
  have hleft := left?_of_phase hx
  obtain ⟨steps, q, hq, hpath, hmade⟩ := path hr hleft
  obtain rfl := Option.some.inj (hleft.symm.trans hq)
  exact ⟨steps, hpath, hmade⟩

theorem kind_of_found_primary (hr : Run (fun _ => Starts asked) (fresh timeout) past b)
    (hc : asked c = .primary) {r : Ref} (hx : b.phase? c = some (.finished (.member (.ok r)))) :
    r.kind = .primary := by
  obtain ⟨steps, hleads, hmade⟩ := path_of_finished hr hx
  rw [hc] at hleads
  obtain ⟨y, hfind, hy⟩ := Program.Leads.of_map_done hleads
  cases hy
  exact Program.kind_of_primary hfind fun e he => isPlausible_of_made (steady hr).2 (hmade e he)

theorem kind_of_found_secondary (hr : Run (fun _ => Starts asked) (fresh timeout) past b)
    {kind : WorkerKind} {id : UInt32} (hc : asked c = .secondary kind id) {r : Ref}
    (hx : b.phase? c = some (.finished (.member (.ok r)))) :
    r.kind = kind ∧ r.id = id ∧ kind.isSecondary ∧ id ≠ primaryId := by
  obtain ⟨steps, hleads, hmade⟩ := path_of_finished hr hx
  rw [hc] at hleads
  obtain ⟨y, hfind, hy⟩ := Program.Leads.of_map_done hleads
  cases hy
  exact Program.kind_of_secondary hfind fun e he => isPlausible_of_made (steady hr).2 (hmade e he)

theorem isListing_of_operation (hr : Run (fun _ => Starts asked) (fresh timeout) past b)
    (hc : asked c = .operation .listing) {entries : List Entry}
    (hx : b.phase? c = some (.finished (.result (.entries entries)))) : IsListing entries := by
  obtain ⟨steps, hleads, hmade⟩ := path_of_finished hr hx
  rw [hc] at hleads
  obtain ⟨y, hop, hy⟩ := Program.Leads.of_map_done hleads
  obtain ⟨z, hlist, hz⟩ := Program.Leads.of_map_done hop
  cases hy
  cases hz
  exact isListing_of_leads (c := c) hr hlist hmade

theorem isListing_of_request (hr : Run (fun _ => Starts asked) (fresh timeout) past b)
    {layout : List Socket} {request : Request} {x : Response}
    (hc : asked c = .request layout request) (hm : request.method = .get)
    (hp : request.target.segments = ["v1", "processes"])
    (hx : b.phase? c = some (.finished (.response x))) :
    ∃ entries, IsListing entries ∧ x = .json (arrayText (entries.map Entry.chars)) := by
  obtain ⟨steps, hleads, hmade⟩ := path_of_finished hr hx
  rw [hc, program, handle_listing layout hm hp] at hleads
  obtain ⟨y, hhandle, hy⟩ := Program.Leads.of_map_done hleads
  obtain ⟨z, hshow, hz⟩ := Program.Leads.of_map_done hhandle
  obtain ⟨entries, hlist, hentries⟩ := Program.Leads.of_map_done hshow
  cases hy
  cases hz
  cases hentries
  exact ⟨entries, isListing_of_leads (c := c) hr hlist hmade, rfl⟩

/-- In every state that services can lead to the registry is proper. So whoever is found as the
primary is of that kind, no secondary is found under the id of the primary, and no listing, asked for
by whatever way, shows a member under that id or two under one. -/
theorem registry_isProper (hr : Run (fun _ => Starts asked) (fresh timeout) past b) :
    b.HasProperRegistry ∧
    (∀ c r, asked c = .primary → b.phase? c = some (.finished (.member (.ok r))) →
      r.kind = .primary) ∧
    (∀ c kind r, asked c = .secondary kind primaryId →
      b.phase? c ≠ some (.finished (.member (.ok r)))) ∧
    (∀ c entries, asked c = .operation .listing →
      b.phase? c = some (.finished (.result (.entries entries))) → IsListing entries) ∧
    (∀ c layout request x, asked c = .request layout request → request.method = .get →
      request.target.segments = ["v1", "processes"] →
      b.phase? c = some (.finished (.response x)) →
      ∃ entries, IsListing entries ∧ x = .json (arrayText (entries.map Entry.chars))) := by
  refine ⟨(steady hr).1.hasProperRegistry, ?_, ?_, ?_, ?_⟩
  · intro c r hc hx
    exact kind_of_found_primary hr hc hx
  · intro c kind r hc hx
    obtain ⟨-, -, -, hne⟩ := kind_of_found_secondary hr hc hx
    exact hne rfl
  · intro c entries hc hx
    exact isListing_of_operation hr hc hx
  · intro c layout request x hc hm hp hx
    exact isListing_of_request hr hc hm hp hx

/-- A secondary and the primary connect, and the listing is asked for. -/
def listed : Nat → Service
  | 0 => .operation (.registerSecondary 0)
  | 1 => .operation (.registerPrimary 1)
  | _ => .request [] ⟨.get, .ofText "/v1/processes", []⟩

theorem registry_isProper_when_listed :
    ∃ past b, Run (fun _ => Starts listed) (fresh 5) past b ∧
      b.registry = [(0, ⟨1, .primary, 0⟩), (1, ⟨0, .nfv, 1⟩)] ∧ b.HasProperRegistry ∧
      ∃ entries, IsListing entries ∧
        response? 2 b = some (.json (arrayText (entries.map Entry.chars))) := by
  obtain ⟨past, b, hr, hreg, hx⟩ :
      ∃ past b, Run (fun _ => Starts listed) (fresh 5) past b ∧
        b.registry = [(0, ⟨1, .primary, 0⟩), (1, ⟨0, .nfv, 1⟩)] ∧ (response? 2 b).isSome :=
    exists_run_of_enact listed
      (nfvArrives ++ ([some .accept, none, some (.run 1), some (.run 1), some (.run 1),
        none, some (.run 2), some (.run 2), some (.serve 0),
        some (.signal 0 (.bytes "1".toUTF8.toList)), some (.receive 2 0), some (.run 2),
        some (.run 2)] : List (Option (Move Upshot))))
      (by decide +kernel)
  obtain ⟨x, hx⟩ := Option.isSome_iff_exists.1 hx
  obtain ⟨hproper, -, -, -, hlisting⟩ := registry_isProper hr
  obtain ⟨entries, hentries, rfl⟩ :=
    hlisting 2 _ _ x rfl rfl (by decide +kernel) (phase?_of_response? hx)
  exact ⟨past, b, hr, hreg, hproper, entries, hentries, hx⟩

end Service

end WorkerBroker
