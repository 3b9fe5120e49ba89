import WorkerBroker.Lcore.Layout
/-!
# Lcores in use

A worker claims its master lcore and the lcores it lists in its status. `usageOf` reads these
claims off a status; a status that lacks what its kind reports claims nothing. `unusedLcores`
takes the claimed lcores out of the layout, and `pickSlaves` picks lcores above a master from
what is left, the lowest first.
-/

namespace WorkerBroker

/-- The lcores that one worker claims. -/
structure Usage where
  kind : WorkerKind
  /-- only secondaries have one -/
  clientId : Option UInt32
  master : UInt32
  lcores : List UInt32
  deriving DecidableEq, Repr, Inhabited

/-- The lcores of a primary: without a master lcore the first one is the master. -/
def primaryUsage? (status : Json) : Option Usage := do
  let lcores ← (status.member? "lcores").bind Json.asU32List?
  let master ← match status.member? "master-lcore" with
    | some master => master.asU32?
    | none => lcores.head?
  return ⟨.primary, none, master, lcores⟩

/-- The lcores of a forwarder. -/
def forwarderUsage? (id : UInt32) (status : Json) : Option Usage := do
  let master ← (status.member? "master-lcore").bind Json.asU32?
  let lcores ← (status.member? "lcores").bind Json.asU32List?
  return ⟨.nfv, some id, master, lcores⟩

/-- The lcores of a worker whose status lists its components. -/
def componentUsage? (kind : WorkerKind) (id : UInt32) (status : Json) : Option Usage := do
  let info ← status.member? "info"
  let master ← (info.member? "master-lcore").bind Json.asU32?
  let cores ← (info.member? "core").bind Json.asArray?
  let lcores ← cores.mapM fun core => (core.member? "core").bind Json.asU32?
  return ⟨kind, some id, master, master :: lcores⟩

/-- The lcores that a worker claims by its status. -/
def usageOf (kind : WorkerKind) (id : UInt32) (status : Json) : Option Usage :=
  match kind with
  | .primary => primaryUsage? status
  | .nfv => forwarderUsage? id status
  | .vf | .mirror | .pcap => componentUsage? kind id status

/-- The published text of a usage. -/
def Usage.chars (u : Usage) : List Char :=
  objectText <|
    [("proc-type", quoted u.kind.name)] ++
    (u.clientId.toList.map fun id => ("client-id", wordText id)) ++
    [("master-lcore", wordText u.master), ("lcores", lcoresText u.lcores)]

/-! ## What is left -/

/-- The lcores of one socket that no worker claims. -/
structure UnusedLcores where
  socket : UInt32
  lcores : List UInt32
  deriving DecidableEq, Repr, Inhabited

/-- Whether some worker claims an lcore. -/
def isClaimed (usage : List Usage) (lcore : UInt32) : Bool :=
  usage.any fun u => lcore == u.master || u.lcores.contains lcore

/-- Whether an lcore may be a slave of a master; without a master every lcore may. -/
def isAbove (master : Option UInt32) (lcore : UInt32) : Bool :=
  match master with
  | some m => m < lcore
  | none => true

/-- For each socket the lcores that no worker claims, with a master only those above it. -/
def unusedLcores (layout : List Socket) (usage : List Usage) (master : Option UInt32) :
    List UnusedLcores :=
  layout.map fun s =>
    ⟨s.id, s.lcores.filter fun l => !isClaimed usage l && isAbove master l⟩

/-- The lcores above a master, ascending and each once. -/
def eligible (unused : List UnusedLcores) (master : UInt32) : List UInt32 :=
  (((unused.flatMap UnusedLcores.lcores).filter (master < ·)).mergeSort fun a b => a ≤ b).eraseReps

/-- The `count` lowest lcores above a master, if there are so many. -/
def pickSlaves (unused : List UnusedLcores) (master : UInt32) (count : Nat) :
    Option (List UInt32) :=
  let ls := eligible unused master
  if count ≤ ls.length then some (ls.take count) else none

/-- The published text of the unused lcores of one socket. -/
def UnusedLcores.chars (u : UnusedLcores) : List Char :=
  objectText [("socket_id", wordText u.socket), ("lcores", lcoresText u.lcores)]

/-- The published text of the unused lcores. -/
def unusedText (unused : List UnusedLcores) : List Char :=
  arrayText (unused.map UnusedLcores.chars)

end WorkerBroker
