import WorkerBroker.Failure
/-!
# Ports

A port is written as a type and an index, `ring:3`. Reading admits a single `+` and leading
zeros in front of the index; `Port.text` writes neither, so writing what was read is a normal
form. `Port.Written` states the admitted texts without the reader.
-/

namespace WorkerBroker

/-- The types of ports. -/
inductive PortType where
  | phy
  | vhost
  | ring
  | pcap
  | nullpmd
  | tap
  deriving DecidableEq, Repr, Inhabited

namespace PortType

/-- Every port type, in the order in which they are listed. -/
def all : List PortType := [phy, vhost, ring, pcap, nullpmd, tap]

/-- The name of a port type. -/
def name : PortType → String
  | phy => "phy"
  | vhost => "vhost"
  | ring => "ring"
  | pcap => "pcap"
  | nullpmd => "nullpmd"
  | tap => "tap"

/-- The port type of that name. -/
def ofName? (s : String) : Option PortType :=
  all.find? fun t => t.name = s

theorem mem_all (t : PortType) : t ∈ all := by cases t <;> decide

theorem ofName?_name (t : PortType) : ofName? t.name = some t := by cases t <;> decide

end PortType

/-- A port of a worker. -/
structure Port where
  type : PortType
  index : UInt32
  deriving DecidableEq, Repr, Inhabited

namespace Port

/-- The text of a port. -/
def text (p : Port) : String :=
  p.type.name ++ ":" ++ decimal p.index.toNat

/-- The characters before the first colon and those behind it. -/
def splitAtColon (cs : List Char) : Option (List Char × List Char) :=
  match cs.dropWhile (· != ':') with
  | [] => none
  | _ :: behind => some (cs.takeWhile (· != ':'), behind)

/-- The port of a text. -/
def ofText? (s : String) : Option Port := do
  let (type, index) ← splitAtColon s.toList
  let type ← PortType.ofName? (String.ofList type)
  let index ← readU32 (String.ofList index)
  return ⟨type, index⟩

/-- The port of a text, or the failure that names the key it stands under. -/
def read (key s : String) : Except Failure Port :=
  match ofText? s with
  | some p => .ok p
  | none => .error (.keyInvalid key s)

/-- The texts that name a port: its type, a colon, at most one `+`, and digits of that value. -/
def Written (p : Port) (s : String) : Prop :=
  ∃ (plus : Bool) (ds : List Char), ds ≠ [] ∧ (∀ c ∈ ds, c.isDigit = true) ∧
    Nat.ofDigitChars 10 ds 0 = p.index.toNat ∧
    s = p.type.name ++ ":" ++ (if plus then "+" else "") ++ String.ofList ds

end Port

/-! ## Attaching ports to components -/

/-- The side of a component a port is attached to. -/
inductive Direction where
  | rx
  | tx
  deriving DecidableEq, Repr, Inhabited

namespace Direction

/-- The name of a direction. -/
def name : Direction → String
  | rx => "rx"
  | tx => "tx"

/-- The direction of that name. -/
def ofName? (s : String) : Option Direction :=
  [rx, tx].find? fun d => d.name = s

/-- The direction of that name, or the failure that names the key. -/
def read (s : String) : Except Failure Direction :=
  match ofName? s with
  | some d => .ok d
  | none => .error (.keyInvalid "dir" s)

end Direction

/-- What happens to the VLAN tag of packets at an attached port. -/
inductive VlanTag where
  /-- it stays as it is -/
  | keep
  /-- a tag with this id and priority is added -/
  | add (id : UInt16) (priority : UInt8)
  /-- it is taken off -/
  | remove
  deriving DecidableEq, Repr, Inhabited

end WorkerBroker
