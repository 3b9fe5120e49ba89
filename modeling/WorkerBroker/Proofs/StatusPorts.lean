import WorkerBroker.Proofs.Lcores
import WorkerBroker.Proofs.Reading
/-!
# Ports that a status shows

The status of a worker that runs components reports the indices of its ports, in one array for each
of three types. They are shown as names of ports, and requests to attach a port or to steer packets
to it take such a name. An index is reported as a JSON integer, which may have 64 bits; as a part of
a name it is read with 32 bits. So a name that is shown is read back as the port with the type and
the index that were reported just if the index is below `2 ^ 32` (`Port.ofText?_portName`), and all
that a status shows can be used if all indices are (`convertInfo_ports`).
-/

namespace WorkerBroker

/-! ## Indices -/

/-- The part `info` of a status reports the ports of a type by their indices. -/
structure Json.ReportsPorts (info : Json) (type : PortType) (indices : List Nat) : Prop where
  member : info.member? type.name = some (.array (indices.map .ofNat))
  bound : ∀ index ∈ indices, index < UInt64.size

theorem mapM_asU64?_eq_some_iff {items : List Json} {indices : List Nat} :
    items.mapM Json.asU64? = some indices ↔
      items = indices.map .ofNat ∧ ∀ index ∈ indices, index < UInt64.size := by
  simp only [mapM_eq_some_iff, asU64?_eq_some_iff]
  constructor
  · intro h
    induction h with
    | nil => simp
    | cons hx _ ih =>
      rw [List.map_cons, List.forall_mem_cons, ← hx.1, ← ih.1]
      exact ⟨rfl, hx.2, ih.2⟩
  · rintro ⟨rfl, hbound⟩
    rw [List.forall₂_map_left_iff, List.forall₂_same]
    exact fun index hindex => ⟨rfl, hbound index hindex⟩

theorem portNames_eq_some_iff {info : Json} {type : PortType} {names : List String} :
    portNames info type = some names ↔
      ∃ indices, info.ReportsPorts type indices ∧ indices.map (portName type) = names := by
  simp only [portNames, Option.bind_eq_bind, Option.bind_eq_some_iff, asArray?_eq_some_iff,
    mapM_asU64?_eq_some_iff, Option.pure_def, Option.some.injEq]
  constructor
  · rintro ⟨items, ⟨v, hv, rfl⟩, indices, ⟨rfl, hbound⟩, hnames⟩
    exact ⟨indices, ⟨hv, hbound⟩, hnames⟩
  · rintro ⟨indices, h, hnames⟩
    exact ⟨_, ⟨_, h.member, rfl⟩, indices, ⟨rfl, h.bound⟩, hnames⟩

/-! ## Names -/

/-- What a body names as a port is read as the port of that name. -/
theorem Body.port_of_text {body : Json} {key s : String} (h : body.member? key = some (.string s)) :
    port body key = Port.read key s := by
  rw [port, text, requireAs, require, h]
  rfl

/-- A name under some key of a body is read as the port with this type and this index. -/
def IsReadAs (name : String) (type : PortType) (index : Nat) : Prop :=
  ∀ body key, body.member? key = some (.string name) →
    ∃ port, Body.port body key = .ok port ∧ port.type = type ∧ port.index.toNat = index

/-- A name is refused under every key. -/
def IsRefused (name : String) : Prop :=
  ∀ body key, body.member? key = some (.string name) →
    Body.port body key = .error (.keyInvalid key name)

theorem isReadAs_of_lt {type : PortType} {index : Nat} (h : index < UInt32.size) :
    IsReadAs (portName type index) type index := by
  intro body key hkey
  refine ⟨⟨type, .ofNat index⟩, ?_, rfl, UInt32.toNat_ofNat_of_lt' h⟩
  rw [Body.port_of_text hkey, Port.read, Port.ofText?_portName, if_pos h]

theorem isRefused_of_le {type : PortType} {index : Nat} (h : UInt32.size ≤ index) :
    IsRefused (portName type index) := by
  intro body key hkey
  rw [Body.port_of_text hkey, Port.read, Port.ofText?_portName, if_neg (Nat.not_lt.2 h)]

/-- No index of a port has more than 32 bits. -/
theorem IsReadAs.lt {name : String} {type : PortType} {index : Nat} (h : IsReadAs name type index) :
    index < UInt32.size := by
  obtain ⟨port, -, -, rfl⟩ := h (.object [("port", .string name)]) "port" rfl
  exact port.index.toNat_lt

/-! ## What is shown -/

/-- The ports that the part `info` of a status reports: first the physical ones, then those of
virtual hosts, then the rings, each array in its order. -/
def Json.ReportsAllPorts (info : Json) (ports : List (PortType × Nat)) : Prop :=
  ∃ phy vhost ring, info.ReportsPorts .phy phy ∧ info.ReportsPorts .vhost vhost ∧
    info.ReportsPorts .ring ring ∧
    ports = phy.map (.phy, ·) ++ vhost.map (.vhost, ·) ++ ring.map (.ring, ·)

theorem exists_reportsAllPorts {info : Json} {names : List String}
    (h : allPortNames info = some names) :
    ∃ ports, info.ReportsAllPorts ports ∧ names = ports.map fun p => portName p.1 p.2 := by
  simp only [allPortNames, statusPortTypes, Option.map_eq_some_iff, mapM_eq_some_iff,
    List.forall₂_cons_left_iff, List.forall₂_nil_left_iff, portNames_eq_some_iff] at h
  obtain ⟨_, ⟨_, _, ⟨phy, hphy, rfl⟩, ⟨_, _, ⟨vhost, hvhost, rfl⟩, ⟨_, _, ⟨ring, hring, rfl⟩, rfl,
    rfl⟩, rfl⟩, rfl⟩, rfl⟩ := h
  refine ⟨_, ⟨phy, vhost, ring, hphy, hvhost, hring, rfl⟩, ?_⟩
  simp [Function.comp_def]

theorem member?_ports_of_convertInfo {status shown : Json} (h : convertInfo status = some shown) :
    ∃ info names, status.member? "info" = some info ∧ allPortNames info = some names ∧
      shown.member? "ports" = some (.array (names.map .string)) := by
  simp only [convertInfo, Option.bind_eq_bind, Option.bind_eq_some_iff] at h
  obtain ⟨info, hinfo, names, hnames, id, -, master, -, cores, -, hshown⟩ := h
  refine ⟨info, names, hinfo, hnames, ?_⟩
  cases hshown
  rcases info.member? "classifier_table" with _ | table <;>
    simp [Json.member?, Json.ofMembers, Table.ofList, Table.find?_put]

/-- The ports that a status shows are the names of those that it reports, in their order. Such a
name is read as the port that was reported just if the index has 32 bits, and refused otherwise. -/
theorem convertInfo_ports {status shown : Json} (h : convertInfo status = some shown) :
    ∃ info ports, status.member? "info" = some info ∧ info.ReportsAllPorts ports ∧
      shown.member? "ports" = some (.array (ports.map fun p => .string (portName p.1 p.2))) ∧
      (∀ p ∈ ports, IsReadAs (portName p.1 p.2) p.1 p.2 ↔ p.2 < UInt32.size) ∧
      ∀ p ∈ ports, UInt32.size ≤ p.2 → IsRefused (portName p.1 p.2) := by
  obtain ⟨info, names, hinfo, hnames, hshown⟩ := member?_ports_of_convertInfo h
  obtain ⟨ports, hports, rfl⟩ := exists_reportsAllPorts hnames
  refine ⟨info, ports, hinfo, hports, ?_, fun p _ => ⟨IsReadAs.lt, isReadAs_of_lt⟩, fun p _ =>
    isRefused_of_le⟩
  rw [hshown, List.map_map]
  rfl

/-- What a worker reports that has a physical port of this index and a ring. -/
def infoOf (index : Nat) : Json :=
  .object [("client-id", .ofNat 1), ("core", .array []), ("master-lcore", .ofNat 1),
    ("phy", .array [.ofNat index]), ("ring", .array [.ofNat 3]), ("vhost", .array [])]

/-- Its status. -/
def statusOf (index : Nat) : Json :=
  .object [("info", infoOf index)]

/-- What is shown of it. -/
def shownOf (index : Nat) : Json :=
  .ofMembers [("client-id", .ofNat 1),
    ("ports", .array [.string (portName .phy index), .string (portName .ring 3)]),
    ("master-lcore", .ofNat 1), ("components", .array [])]

theorem infoOf_reportsPorts {index : Nat} (h : index < UInt64.size) :
    (infoOf index).ReportsPorts .phy [index] ∧ (infoOf index).ReportsPorts .vhost [] ∧
      (infoOf index).ReportsPorts .ring [3] := by
  refine ⟨⟨rfl, ?_⟩, ⟨rfl, nofun⟩, ⟨rfl, ?_⟩⟩
  · simpa using h
  · simp [UInt64.size]

theorem convertInfo_statusOf {index : Nat} (h : index < UInt64.size) :
    convertInfo (statusOf index) = some (shownOf index) := by
  obtain ⟨hphy, hvhost, hring⟩ := infoOf_reportsPorts h
  have hports : allPortNames (infoOf index) = some [portName .phy index, portName .ring 3] := by
    simp [allPortNames, statusPortTypes, portNames_eq_some_iff.2 ⟨_, hphy, rfl⟩,
      portNames_eq_some_iff.2 ⟨_, hvhost, rfl⟩, portNames_eq_some_iff.2 ⟨_, hring, rfl⟩]
  have hinfo : (statusOf index).member? "info" = some (infoOf index) := rfl
  rw [convertInfo, hinfo, Option.bind_eq_bind, Option.bind_some, hports]
  rfl

theorem convertInfo_ports_of_first : convertInfo (statusOf 0) = some (shownOf 0) ∧
    ∃ info ports, (statusOf 0).member? "info" = some info ∧ info.ReportsAllPorts ports ∧
      (shownOf 0).member? "ports" =
        some (.array (ports.map fun p => .string (portName p.1 p.2))) ∧
      (∀ p ∈ ports, IsReadAs (portName p.1 p.2) p.1 p.2 ↔ p.2 < UInt32.size) := by
  have h : convertInfo (statusOf 0) = some (shownOf 0) := convertInfo_statusOf (by decide)
  obtain ⟨info, ports, hinfo, hports, hshown, hread, -⟩ := convertInfo_ports h
  exact ⟨h, info, ports, hinfo, hports, hshown, hread⟩

/-- A physical port with an index of 33 bits is shown, and its name is refused. -/
theorem shown_though_refused :
    convertInfo (statusOf 4294967296) = some (shownOf 4294967296) ∧
      (shownOf 4294967296).member? "ports" =
        some (.array [.string "phy:4294967296", .string "ring:3"]) ∧
      Body.port (.ofMembers [("port", .string "phy:4294967296")]) "port" =
        .error (.keyInvalid "port" "phy:4294967296") := by
  have hname : portName .phy 4294967296 = "phy:4294967296" := by decide +kernel
  have hring : portName .ring 3 = "ring:3" := by decide +kernel
  refine ⟨convertInfo_statusOf (by decide), ?_, ?_⟩
  · rw [shownOf, hname, hring]
    simp [Json.member?, Json.ofMembers, Table.ofList, Table.find?_put]
  · exact hname ▸ isRefused_of_le (by decide) _ "port" rfl

end WorkerBroker
