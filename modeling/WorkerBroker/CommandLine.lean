import WorkerBroker.Settings
import WorkerBroker.Text.Decimal
/-!
# The command line

Each option may be given once, by its long name or by a letter. A value follows as the next
argument, after `=`, or right after the letter; letters of options without a value can be joined.
Arguments are read one after the other, so a request for help counts only if nothing before it is
wrong. There are no other arguments.
-/

namespace WorkerBroker

/-- An option. -/
inductive Flag where
  | bindAddress
  | primaryPort
  | secondaryPort
  | apiPort
  | timeout
  | layoutHelper
  | debug
  | help
  deriving DecidableEq, Repr, Inhabited

namespace Flag

/-- Every option. -/
def all : List Flag :=
  [bindAddress, primaryPort, secondaryPort, apiPort, timeout, layoutHelper, debug, help]

/-- The long name. -/
def long : Flag → String
  | bindAddress => "bind-addr"
  | primaryPort => "pri-port"
  | secondaryPort => "sec-port"
  | apiPort => "api-port"
  | timeout => "command-timeout"
  | layoutHelper => "cpu-layout-helper"
  | debug => "debug"
  | help => "help"

/-- The letter, if there is one. -/
def short : Flag → Option Char
  | bindAddress => some 'b'
  | primaryPort => some 'p'
  | secondaryPort => some 's'
  | apiPort => some 'a'
  | timeout => none
  | layoutHelper => none
  | debug => some 'd'
  | help => some 'h'

/-- Whether a value follows. -/
def takesValue : Flag → Bool
  | debug | help => false
  | _ => true

/-- The option of a long name. -/
def ofLong? (s : String) : Option Flag := all.find? fun f => f.long = s

/-- The option of a letter. -/
def ofShort? (c : Char) : Option Flag := all.find? fun f => f.short = some c

end Flag

/-- What has been given so far. -/
structure Given where
  bindAddress : Option String
  primaryPort : Option UInt16
  secondaryPort : Option UInt16
  apiPort : Option UInt16
  /-- in seconds -/
  timeout : Option Nat
  layoutHelper : Option String
  debug : Bool
  deriving DecidableEq, Repr, Inhabited

namespace Given

/-- Nothing. -/
def nothing : Given := ⟨none, none, none, none, none, none, false⟩

/-- Note a value that has not been given before. -/
def once {α : Type} (old new : Option α) : Option (Option α) :=
  match old, new with
  | none, some x => some (some x)
  | _, _ => none

/-- A port. A sign is allowed. -/
def readPort (s : String) : Option UInt16 :=
  (readI64 s.toList).bind fun n =>
    if 0 ≤ n ∧ n < UInt16.size then some (UInt16.ofNat n.toNat) else none

/-- A number of seconds. -/
def readSeconds (s : String) : Option Nat :=
  (readNat s.toList).bind fun n => if n < UInt64.size then some n else none

/-- Note the value of an option; `none` if it is wrong or the option has been given before. -/
def note (f : Flag) (value : String) (g : Given) : Option Given :=
  match f with
  | .bindAddress => (once g.bindAddress (some value)).map fun v => { g with bindAddress := v }
  | .primaryPort =>
    (once g.primaryPort (readPort value)).map fun v => { g with primaryPort := v }
  | .secondaryPort =>
    (once g.secondaryPort (readPort value)).map fun v => { g with secondaryPort := v }
  | .apiPort => (once g.apiPort (readPort value)).map fun v => { g with apiPort := v }
  | .timeout => (once g.timeout (readSeconds value)).map fun v => { g with timeout := v }
  | .layoutHelper =>
    (once g.layoutHelper (if value.isEmpty then none else some value)).map fun v =>
      { g with layoutHelper := v }
  | .debug => if g.debug then none else some { g with debug := true }
  | .help => none

/-- The settings, with the standard ones where nothing is given. -/
def settings (g : Given) : Settings where
  bindAddress := g.bindAddress.getD Settings.standard.bindAddress
  primaryPort := g.primaryPort.getD Settings.standard.primaryPort
  secondaryPort := g.secondaryPort.getD Settings.standard.secondaryPort
  apiPort := g.apiPort.getD Settings.standard.apiPort
  timeout := (g.timeout.map (1000 * ·)).getD Settings.standard.timeout
  layout := (g.layoutHelper.map .helper).getD Settings.standard.layout

end Given

/-- What the arguments ask for. -/
inductive Invocation where
  | help
  /-- they cannot be understood -/
  | misuse
  | run (settings : Settings)
  deriving DecidableEq, Repr, Inhabited

namespace Invocation

/-- What reading one argument leads to: an option may still want its value. -/
abbrev Reading := Except Invocation (Given × Option Flag)

/-- Note the value of an option. -/
def noteValue (f : Flag) (value : String) (g : Given) : Reading :=
  match g.note f value with
  | some g => .ok (g, none)
  | none => .error .misuse

/-- An option without a value. -/
def noteBare (f : Flag) (g : Given) : Reading :=
  if f = .help then .error .help
  else if f.takesValue then .ok (g, some f)
  else noteValue f "" g

/-- An option by its long name. -/
def readLong (cs : List Char) (g : Given) : Reading :=
  match Flag.ofLong? (String.ofList (cs.takeWhile (· != '='))) with
  | none => .error .misuse
  | some f =>
    match cs.dropWhile (· != '=') with
    | [] => noteBare f g
    | _ :: value => if f.takesValue then noteValue f (String.ofList value) g else .error .misuse

/-- A value that stands right after a letter. -/
def attached : List Char → String
  | '=' :: cs => String.ofList cs
  | cs => String.ofList cs

/-- Options by their letters. -/
def readLetters : List Char → Given → Reading
  | [], g => .ok (g, none)
  | c :: cs, g =>
    match Flag.ofShort? c with
    | none => .error .misuse
    | some f =>
      if f.takesValue && !cs.isEmpty then noteValue f (attached cs) g
      else
        match noteBare f g with
        | .ok (g, none) => readLetters cs g
        | r => r

/-- One argument that is not a value. -/
def readArgument (s : String) (g : Given) : Reading :=
  match s.toList with
  | '-' :: '-' :: cs => readLong cs g
  | '-' :: c :: cs => readLetters (c :: cs) g
  | _ => .error .misuse

/-- Whether an argument can be the value of the option before it. -/
def isValue (s : String) : Bool :=
  match s.toList with
  | '-' :: _ :: _ => false
  | _ => true

/-- Read arguments one after the other; `wanting` is an option that wants its value. -/
def read (g : Given) (wanting : Option Flag) : List String → Invocation
  | [] => if wanting.isSome then .misuse else .run g.settings
  | s :: rest =>
    match wanting with
    | some f =>
      if isValue s then
        match noteValue f s g with
        | .ok (g, _) => read g none rest
        | .error i => i
      else .misuse
    | none =>
      if s = "--" then (if rest.isEmpty then .run g.settings else .misuse)
      else
        match readArgument s g with
        | .ok (g, wanting) => read g wanting rest
        | .error i => i

/-- What arguments ask for. -/
def ofArguments (arguments : List String) : Invocation :=
  read .nothing none arguments

end Invocation

end WorkerBroker
