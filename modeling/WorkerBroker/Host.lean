import WorkerBroker.Inet
import WorkerBroker.Settings
/-!
# The host

What the broker can count on depends on the host it runs on: which addresses its listeners can
be bound to, which ports are taken, and whether connections between programs of the host get
through at all. On an isolated host not even the loopback interface is up: no connection gets
through, and as nothing says which IPv4 addresses are the host's own, any of them can be bound.
-/

namespace WorkerBroker

/-- Properties of a host. -/
structure Host where
  /-- whether the loopback interface is up -/
  loopback : Bool
  /-- the ports of the address 127.0.0.1 that some other program listens on -/
  busyPorts : List UInt16
  /-- what is said of a name that is not found -/
  lookupFault : String
  deriving DecidableEq, Repr, Inhabited

namespace Host

/-- What is said of a name that no host can have. -/
def unknownName : String := "Name or service not known"

/-- A host like any other. -/
def ordinary : Host := ⟨true, [], unknownName⟩

/-- A host without network interfaces. -/
def isolated : Host := ⟨false, [], "Temporary failure in name resolution"⟩

/-- Whether connections get through. -/
def connects (host : Host) : Bool := host.loopback

/-- The address that a text names. The one name that every host knows is its own. -/
def addressOf? (text : String) : Option InetAddress :=
  if text.toLower = "localhost" then some (.v4 .loopback) else InetAddress.ofText? text

/-- Whether an IPv4 address can be bound: one of the host's own, or one of a group of hosts or of
all hosts. -/
def admitsIpv4 (host : Host) (a : Ipv4) : Bool :=
  !host.loopback || a = .any || a.firstByte = 127 || a.firstByte / 16 = 14 || a = .all

/-- What keeps an address from being bound, whatever the port. -/
def addressFault? (host : Host) : InetAddress → Option String
  | .v4 a => if host.admitsIpv4 a then none else foreign
  | .v6 a =>
    if a.isIncomplete then some "Invalid argument (os error 22)"
    else if a.isAny || (host.loopback && a.isLoopback) || a.toIpv4?.any host.admitsIpv4 then none
    else foreign
where
  /-- The address is not the host's own. -/
  foreign : Option String := some "Cannot assign requested address (os error 99)"

/-- Whether binding an address takes 127.0.0.1. -/
def takesLoopback : InetAddress → Bool
  | .v4 a => a = .any || a = .loopback
  | .v6 a => a.isAny || a.toIpv4?.any fun b => b = .any || b = .loopback

/-- What keeps a listener from being bound. -/
def bindFault? (host : Host) (address : String) (port : UInt16) : Option String :=
  match addressOf? address with
  | none =>
    some ("failed to lookup address information: " ++
      if isHostName address then host.lookupFault else unknownName)
  | some a =>
    (host.addressFault? a).or <|
      if takesLoopback a && host.busyPorts.contains port then
        some "Address already in use (os error 98)"
      else none

end Host

end WorkerBroker
