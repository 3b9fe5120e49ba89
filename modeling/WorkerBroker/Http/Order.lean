import WorkerBroker.Command
import WorkerBroker.Http.Body
/-!
# Orders

An order is a command that the body of a request describes. `Order.command` reads it off the
body: first all keys that are always needed must be there, then each value is checked. The keys
an order looks at are listed by `Order.keys`; nothing else in the body matters.

A VLAN tag is looked at only where a port is attached to a component of a `vf`, a VLAN id only
where the entry of the classifier table has one.
-/

namespace WorkerBroker

/-- A command that a body describes. -/
inductive Order where
  | forward
  | port
  | patch
  | launch
  | capture
  | startComponent
  /-- for the component of that name -/
  | componentPort (name : String)
  | classifierTable
  deriving DecidableEq, Repr, Inhabited

namespace Order

/-- The keys that must be there. -/
def requiredKeys : Order → List String
  | forward | capture => ["action"]
  | port => ["action", "port"]
  | patch => ["src", "dst"]
  | launch => ["client_id", "proc_name", "eal", "app"]
  | startComponent => ["name", "core", "type"]
  | componentPort _ => ["action", "port", "dir"]
  | classifierTable => ["action", "type", "port", "mac_address"]

/-- Whether the string under a key is this one. -/
def hasText (body : Json) (key value : String) : Bool :=
  (body.member? key).bind Json.asString? = some value

/-- The keys that are looked at for a worker of some kind. -/
def keys (kind : WorkerKind) (body : Json) (o : Order) : List String :=
  match o with
  | componentPort _ =>
    if kind = .vf && hasText body "action" "attach" then o.requiredKeys ++ ["vlan"]
    else o.requiredKeys
  | classifierTable =>
    if hasText body "type" "vlan" then o.requiredKeys ++ ["vlan"] else o.requiredKeys
  | _ => o.requiredKeys

/-- Start something, or stop. -/
def startOrStop (body : Json) (starting : Command) : Except Failure Command := do
  let action ← Body.choice body "action" ["start", "stop"]
  return if action = "start" then starting else .stop

/-- Add or remove a port. -/
def portCommand (body : Json) : Except Failure Command := do
  let action ← Body.choice body "action" ["add", "del"]
  let port ← Body.port body "port"
  return if action = "add" then .addPort port else .delPort port

/-- Connect two ports. -/
def patchCommand (body : Json) : Except Failure Command := do
  let src ← Body.port body "src"
  let dst ← Body.port body "dst"
  return .patch src dst

/-- Launch a secondary. -/
def launchCommand (body : Json) : Except Failure Command := do
  let clientId ← Body.word body "client_id"
  let app ← Body.name body "proc_name"
  let eal ← Body.object body "eal"
  let options ← Body.object body "app"
  return .launch (← Launch.compose clientId app eal options)

/-- Start a component of a kind that the worker can run. -/
def startComponentCommand (kind : WorkerKind) (body : Json) : Except Failure Command := do
  let name ← Body.name body "name"
  let core ← Body.word body "core"
  let type ← Body.text body "type"
  match ComponentKind.ofName? kind type with
  | some component => return .startComponent name core component
  | none => throw (.keyInvalid "type" type)

/-- Attach a port to a component or detach it. -/
def componentPortCommand (kind : WorkerKind) (name : String) (body : Json) :
    Except Failure Command := do
  let action ← Body.choice body "action" ["attach", "detach"]
  let direction ← Direction.read (← Body.choice body "dir" ["rx", "tx"])
  let port ← Body.port body "port"
  if action = "attach" then
    let tag ← if kind = .vf then Body.vlanTag body else pure .keep
    return .attachPort port direction name tag
  else return .detachPort port direction name

/-- Add or remove an entry of the classifier table. -/
def classifierTableCommand (body : Json) : Except Failure Command := do
  let action ← Body.choice body "action" ["add", "del"]
  let type ← Body.choice body "type" ["mac", "vlan"]
  let port ← Body.port body "port"
  let mac ← Body.mac body "mac_address"
  let vlan ← if type = "mac" then pure none else (Body.vlanId body "vlan").map some
  return .classifierTable (if action = "add" then .add else .del) ⟨vlan, mac, port⟩

/-- The command for a worker of some kind, once the keys that are always needed are there. -/
def commandOf (kind : WorkerKind) (body : Json) : Order → Except Failure Command
  | forward => startOrStop body .forward
  | capture => startOrStop body .start
  | port => portCommand body
  | patch => patchCommand body
  | launch => launchCommand body
  | startComponent => startComponentCommand kind body
  | componentPort name => componentPortCommand kind name body
  | classifierTable => classifierTableCommand body

/-- The name in the path of an order, where there is one, must be a token. -/
def checkPath : Order → Except Failure Unit
  | componentPort name => (Body.checkName "name" name).map fun _ => ()
  | _ => .ok ()

/-- The command for a worker of some kind. -/
def command (kind : WorkerKind) (body : Json) (o : Order) : Except Failure Command := do
  o.checkPath
  Body.requireAll body o.requiredKeys
  o.commandOf kind body

/-- Whether the keys are checked before the worker is looked up. -/
def keysFirst : Order → Bool
  | launch => true
  | _ => false

end Order

end WorkerBroker
