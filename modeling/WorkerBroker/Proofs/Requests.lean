import WorkerBroker.Http.Route
import WorkerBroker.Proofs.Conduct
import WorkerBroker.Proofs.Orders
/-!
# What requests are about

A request is about one worker or about all of them, and its path says which (`Request.addressee?`).
What is to be done with the worker comes to a command (`Request.Asks`), and the two tables that have
a say in it agree: whatever a path admits suits the kind of workers that the path is about
(`Request.suits_of_errand?`), and they understand what suits them (`Action.supported_of_asks`).
-/

namespace WorkerBroker

/-! ## Workers and commands -/

namespace Request

/-- What a request is for, if there is such a thing and the texts of the path can be decoded. -/
def errand? (request : Request) : Option Errand :=
  (errandFor? request.method (routes request.target.segments)).bind fun e => e.decode.toOption

/-- The worker that the path of a request names: the primary, or the one of the kind of a collection
with the number that the next segment gives. -/
def addressee? (request : Request) : Option Identity :=
  match request.target.segments with
  | "v1" :: "primary" :: _ => some (.primary, primaryId)
  | "v1" :: collection :: id :: _ => do
    let kind ← collectionKind? collection
    let id ← (decodeSegment "sec_id" id).toOption
    let id ← readU32 id
    return (kind, id)
  | _ => none

/-- Whether a request is about one worker. -/
def IsForWorker (request : Request) : Prop :=
  ∃ collection ∈ ["primary", "nfvs", "vfs", "mirrors", "pcaps"], ∃ path,
    request.target.segments = "v1" :: collection :: path

end Request

/-- The command that something which is to be done with a worker comes to. -/
def Action.Asks (kind : WorkerKind) (body : Bytes) (command : Command) : Action → Prop
  | .display => command = .status
  | .exit => command = .exit
  | .clear => command = .clear
  | .resetPatches => command = .resetPatches
  | .stopComponent name => isToken name ∧ command = .stopComponent name
  | .order o => ∃ value, Body.parse body = .ok value ∧ o.Yields kind value command

/-- The command that a request comes to for a worker of some kind. -/
def Request.Asks (request : Request) (kind : WorkerKind) (command : Command) : Prop :=
  ∃ address action, request.errand? = some (.worker address action) ∧
    action.Asks kind request.body command

/-! ### Routes and kinds of workers -/

/-- Whether workers of some kind understand what is to be done with them. -/
def Action.Suits (kind : WorkerKind) : Action → Prop
  | .display | .exit => True
  | .clear => kind = .primary
  | .resetPatches => kind = .primary ∨ kind = .nfv
  | .stopComponent _ => kind = .vf ∨ kind = .mirror
  | .order o => o.Suits kind

theorem suits_of_primaryRoutes (path : List String) :
    ∀ x ∈ primaryRoutes path, x.2.Suits .primary := by
  unfold primaryRoutes
  split <;> simp [Action.Suits, Order.Suits]

theorem suits_of_componentRoutes {kind : WorkerKind} (hk : kind = .vf ∨ kind = .mirror)
    (path : List String) : ∀ x ∈ componentRoutes path, x.2.Suits kind := by
  unfold componentRoutes
  split <;> simp [Action.Suits, Order.Suits, hk]

theorem suits_of_secondaryRoutes (kind : WorkerKind) (path : List String) :
    ∀ x ∈ secondaryRoutes kind path, x.2.Suits kind := by
  cases kind with
  | primary => simp [secondaryRoutes]
  | nfv =>
    simp only [secondaryRoutes, forwarderRoutes]
    split <;> simp [Action.Suits, Order.Suits]
  | vf =>
    simp only [secondaryRoutes, classifierRoutes]
    split
    · simp [Action.Suits, Order.Suits]
    · exact suits_of_componentRoutes (.inl rfl) _
  | mirror => exact suits_of_componentRoutes (.inr rfl) path
  | pcap =>
    simp only [secondaryRoutes, captureRoutes]
    split <;> simp [Action.Suits, Order.Suits]

/-- What a path admits: a read over all members, or something to be done with the worker that the
path names. -/
theorem mem_routes {segments : List String} {m : Method} {e : Errand}
    (h : (m, e) ∈ routes segments) :
    (∃ name ∈ ["processes", "cpu_usage", "cpu_layout", "cpu_unused"], segments = ["v1", name] ∧
      ∀ address action, e ≠ .worker address action) ∨
    (∃ path action, segments = "v1" :: "primary" :: path ∧ (m, action) ∈ primaryRoutes path ∧
      e = .worker .primary action) ∨
    ∃ collection id path kind action, segments = "v1" :: collection :: id :: path ∧
      collection ≠ "primary" ∧
      collectionKind? collection = some kind ∧ (m, action) ∈ secondaryRoutes kind path ∧
      e = .worker (.secondary kind id) action := by
  unfold routes at h
  split at h
  · simp only [List.mem_singleton, Prod.mk.injEq] at h
    obtain ⟨-, rfl⟩ := h
    exact .inl ⟨"processes", by simp, rfl, nofun⟩
  · simp only [List.mem_singleton, Prod.mk.injEq] at h
    obtain ⟨-, rfl⟩ := h
    exact .inl ⟨"cpu_usage", by simp, rfl, nofun⟩
  · simp only [List.mem_singleton, Prod.mk.injEq] at h
    obtain ⟨-, rfl⟩ := h
    exact .inl ⟨"cpu_layout", by simp, rfl, nofun⟩
  · simp only [List.mem_singleton, Prod.mk.injEq] at h
    obtain ⟨-, rfl⟩ := h
    exact .inl ⟨"cpu_unused", by simp, rfl, nofun⟩
  · obtain ⟨⟨m', action⟩, ha, he⟩ := List.mem_map.1 h
    cases he
    exact .inr (.inl ⟨_, action, rfl, ha, rfl⟩)
  · rename_i collection id path hne
    unfold collectionRoutes at h
    split at h
    · cases h
    · rename_i kind hk
      split at h
      · cases h
      · obtain ⟨⟨m', action⟩, ha, he⟩ := List.mem_map.1 h
        cases he
        refine .inr (.inr ⟨collection, id, path, kind, action, rfl, ?_, hk, ha, rfl⟩)
        rintro rfl
        exact hne rfl
  · cases h

/-- There are four collections. -/
theorem mem_of_collectionKind? {collection : String} {kind : WorkerKind}
    (h : collectionKind? collection = some kind) :
    collection ∈ ["nfvs", "vfs", "mirrors", "pcaps"] := by
  unfold collectionKind? at h
  split at h
  · simp [*]
  · split at h
    · simp [*]
    · split at h
      · simp [*]
      · split at h
        · simp [*]
        · cases h

/-- The kind of the workers that an address can name. -/
def Address.kind : Address → WorkerKind
  | .primary => .primary
  | .secondary kind _ => kind

/-- The worker that an address names. -/
def Address.identity? : Address → Option Identity
  | .primary => some (.primary, primaryId)
  | .secondary kind id => (readU32 id).map fun n => (kind, n)

/-- Decoding the name in a path makes no other action of it. -/
theorem suits_of_decode {kind : WorkerKind} {a a' : Action} (h : a.decode = .ok a')
    (hs : a.Suits kind) : a'.Suits kind := by
  cases a with
  | stopComponent name =>
    simp only [Action.decode] at h
    rcases hd : decodeSegment "name" name with _ | s <;> rw [hd] at h <;> cases h
    exact hs
  | order o =>
    cases o with
    | componentPort name =>
      simp only [Action.decode, Order.decode] at h
      rcases hd : decodeSegment "name" name with _ | s <;> rw [hd] at h <;> cases h
      exact hs
    | _ =>
      cases h
      exact hs
  | _ =>
    cases h
    exact hs

/-- The parts of an errand with one worker are decoded each for itself. -/
theorem Errand.decode_worker {address : Address} {action : Action} {e : Errand}
    (h : (worker address action).decode = .ok e) :
    ∃ address' action', e = .worker address' action' ∧ address.decode = .ok address' ∧
      action.decode = .ok action' := by
  simp only [Errand.decode] at h
  rcases ha : address.decode with _ | x <;> rw [ha] at h
  · cases h
  · rcases hb : action.decode with _ | y <;> rw [hb] at h <;> cases h
    exact ⟨x, y, rfl, rfl, rfl⟩

/-- What a request is for is among what its path admits. -/
theorem Request.of_errand? {request : Request} {e : Errand} (h : request.errand? = some e) :
    ∃ m e', (m, e') ∈ routes request.target.segments ∧
      m = (if request.method = .head then .get else request.method) ∧ e'.decode = .ok e := by
  obtain ⟨e', he', hd⟩ := Option.bind_eq_some_iff.1 h
  obtain ⟨⟨m, e''⟩, hf, rfl⟩ := Option.map_eq_some_iff.1 he'
  refine ⟨m, e'', List.mem_of_find?_eq_some hf, by simpa using List.find?_some hf, ?_⟩
  rcases hx : e''.decode with _ | x <;> rw [hx] at hd <;> cases hd
  rfl

/-- What is done for a request about a worker suits the worker that its path names. -/
theorem Request.suits_of_errand? {request : Request} {address : Address} {action : Action}
    (h : request.errand? = some (.worker address action)) :
    request.IsForWorker ∧ request.addressee? = address.identity? ∧ action.Suits address.kind := by
  obtain ⟨m, e, hmem, -, hd⟩ := request.of_errand? h
  -- a read over all, the primary, or a worker of one of the collections
  rcases mem_routes hmem with ⟨-, -, -, hno⟩ | ⟨path, action', hseg, hr, rfl⟩ |
    ⟨collection, id, path, kind, action', hseg, hne, hk, hr, rfl⟩
  · cases e with
    | worker address' action' => exact absurd rfl (hno address' action')
    | _ => cases hd
  · obtain ⟨_, _, ⟨⟩, ha, hb⟩ := Errand.decode_worker hd
    cases ha
    refine ⟨⟨"primary", by simp, path, hseg⟩, ?_, suits_of_decode hb ?_⟩
    · rw [addressee?, hseg]
      rfl
    · exact suits_of_primaryRoutes path _ hr
  · obtain ⟨_, _, ⟨⟩, ha, hb⟩ := Errand.decode_worker hd
    simp only [Address.decode] at ha
    rcases hid : decodeSegment "sec_id" id with _ | text <;> rw [hid] at ha <;> cases ha
    refine ⟨⟨collection, ?_, id :: path, hseg⟩, ?_, suits_of_decode hb ?_⟩
    · exact List.mem_cons_of_mem _ (mem_of_collectionKind? hk)
    · simp only [addressee?, hseg, hk, hid, Address.identity?]
      change (readU32 text).bind (fun n => some (kind, n)) = _
      rcases readU32 text with _ | n <;> rfl
    · exact suits_of_secondaryRoutes kind path _ hr

/-- Workers understand what suits their kind. -/
theorem Action.supported_of_asks {kind : WorkerKind} {body : Bytes} {a : Action} {c : Command}
    (h : a.Asks kind body c) (hs : a.Suits kind) : c.supportedBy kind := by
  cases a with
  | display | exit =>
    obtain rfl := h
    rfl
  | clear | resetPatches =>
    obtain rfl := h
    exact decide_eq_true hs
  | stopComponent name =>
    obtain ⟨-, rfl⟩ := h
    exact decide_eq_true hs
  | order o =>
    obtain ⟨value, -, hy⟩ := h
    exact hy.supported hs

end WorkerBroker
