import WorkerBroker.Failure
import WorkerBroker.Json.Printer
import WorkerBroker.Text.Chars
/-!
# Launching a secondary

A launch names an application and has two lists of options, those of the environment layer and
those of the application. A request gives the options as two objects; only the listed ones are
taken, each at most once and in the order of the list. An option is followed by its value unless
the value is null or empty, and every value must be one token, so that it cannot be read as more
than one option.
-/

namespace WorkerBroker

/-- The options of the environment layer, in the order in which they are written. -/
def ealOptions : List String :=
  [ -- lcores
    "-c", "-l", "--lcores", "--master-lcore", "-s",
    -- devices
    "-b", "--pci-blacklist", "-w", "--pci-whitelist", "--vdev", "-d", "--no-pci",
    -- several processes
    "--proc-type",
    -- memory
    "-n", "-r", "-m", "--in-memory", "--iova-mode",
    -- debugging
    "--no-shconf", "--no-huge", "--log-level", "--file-prefix",
    -- one operating system only
    "--create-uio-dev", "--vmware-tsc-map", "--no-hpet", "--vfio-intr", "--base-virtaddr",
    "--legacy-mem", "--socket-mem", "--socket-limit", "--single-file-segments", "--huge-dir",
    "--huge-unlink", "--match-allocations", "--syslog" ]

/-- One of these must be given. -/
def lcoreOptions : List String := ["-c", "-l", "--lcores"]

/-- This one must be given. -/
def procTypeOption : String := "--proc-type"

/-- The options of an application, by its name. -/
def appOptions (name : String) : List String :=
  if name = "spp_nfv" then ["-n", "-s", "--vhost-client"]
  else if name = "spp_vf" ∨ name = "spp_mirror" then ["--client-id", "-s", "--vhost-client"]
  else if name = "spp_pcap" then ["--client-id", "-s", "-c", "--out-dir", "--fsize"]
  else []

/-- A launch as it is sent. -/
structure Launch where
  clientId : UInt32
  /-- the name of the application -/
  app : String
  /-- options of the environment layer with their values -/
  eal : List String
  /-- options of the application with their values -/
  options : List String
  deriving DecidableEq, Repr, Inhabited

namespace Launch

/-- The text of an option's value; `none` for an option without one. -/
def optionValue : Json → Option String
  | .null => none
  | .string s => if s.isEmpty then none else some s
  | v => some v.text

/-- One option with its value, if it is given. -/
def optionTokens (given : Table String Json) (option : String) : Except Failure (List String) :=
  match Table.find? option given with
  | none => .ok []
  | some v =>
    match optionValue v with
    | none => .ok [option]
    | some s => if isToken s then .ok [option, s] else .error (.keyInvalid option s)

/-- The listed options that are given, with their values. -/
def collect (given : Table String Json) : List String → Except Failure (List String)
  | [] => .ok []
  | option :: rest =>
    match optionTokens given option with
    | .error e => .error e
    | .ok ts => (collect given rest).map (ts ++ ·)

/-- The launch of a request. The name must be a token, then one of the lcore options and the
process type must be given, then the values of both lists are checked. -/
def compose (clientId : UInt32) (app : String) (eal options : Table String Json) :
    Except Failure Launch :=
  if !isToken app then .error (.keyInvalid "proc_name" app)
  else if !lcoreOptions.any (Table.has · eal) then
    .error (.keyRequired ("|".intercalate lcoreOptions))
  else if !Table.has procTypeOption eal then .error (.keyRequired procTypeOption)
  else
    match collect eal ealOptions with
    | .error e => .error e
    | .ok eal => (collect options (appOptions app)).map fun options => ⟨clientId, app, eal, options⟩

end Launch

end WorkerBroker
