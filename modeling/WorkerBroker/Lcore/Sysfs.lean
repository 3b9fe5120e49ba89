import WorkerBroker.Lcore.Layout
import WorkerBroker.Text.Chars
import WorkerBroker.Text.Cut
/-!
# The layout from a file tree

The operating system describes each cpu `n` by two files, the number of its core and that of its
package. `sysfsLayout` reads them for every cpu up to `kernel_max`; a cpu that lacks one of them
is offline and left out. The cpus are gathered in a table of cores first, which is then cut into
sockets. Sockets, cores and lcores come out ascending.
-/

namespace WorkerBroker

/-! ## Places -/

/-- The place of a core: the id of its socket and its own. -/
structure CorePlace where
  socket : UInt32
  core : UInt32
  deriving DecidableEq, Repr

/-- Places are in the order of their sockets, and of the cores if they are on one socket. -/
instance : LT CorePlace where
  lt p q := p.socket < q.socket ∨ p.socket = q.socket ∧ p.core < q.core

instance : DecidableRel (α := CorePlace) (· < ·) := fun p q =>
  inferInstanceAs (Decidable (p.socket < q.socket ∨ p.socket = q.socket ∧ p.core < q.core))

/-! ## Files -/

/-- A path below a directory: the names on the way to a file, the last one first. -/
abbrev TreePath := List String

/-- One step along a path. An empty name and `.` stay, and `..` goes back. -/
def TreePath.step (path : TreePath) (name : String) : TreePath :=
  if name = "" || name = "." then path
  else if name = ".." then path.tail
  else name :: path

/-- The path that a text with slashes describes. -/
def TreePath.ofText (s : String) : TreePath :=
  ((cutAt '/' s.toList).map String.ofList).foldl step []

/-- Files by their path below a root directory. A path without contents is a directory. -/
structure FileTree where
  root : String
  files : List (TreePath × Option String)
  deriving Repr, Inhabited

namespace FileTree

/-- The tree of files written one after the other: of two with the same path the later one is
there. -/
def ofFiles (root : String) (files : List (String × Option String)) : FileTree :=
  ⟨root, (files.map fun (path, contents) => (.ofText path, contents)).reverse⟩

/-- The contents of a file. -/
def contents? (t : FileTree) (path : TreePath) : Option String :=
  (Table.find? path t.files).join

/-- The number a file holds, blanks at both ends aside. -/
def number? (t : FileTree) (path : TreePath) : Option UInt32 :=
  (t.contents? path).bind fun s => readU32 (String.ofList (trim s.toList))

/-- Where a cpu is. -/
def place? (t : FileTree) (cpu : UInt32) : Option CorePlace := do
  let topology : TreePath := ["topology", "cpu" ++ decimal cpu.toNat]
  let core ← t.number? ("core_id" :: topology)
  let socket ← t.number? ("physical_package_id" :: topology)
  return ⟨socket, core⟩

end FileTree

/-! ## Cpus -/

/-- The cpus that `kernel_max` admits, ascending. -/
def cpusUpTo (kernelMax : UInt32) : List UInt32 :=
  (List.range (kernelMax.toNat + 1)).map UInt32.ofNat

/-- The lcores of each core by its place. -/
abbrev CoreTable := Table CorePlace (List UInt32)

/-- Put a cpu behind those of its core, if it is online. -/
def FileTree.gather (t : FileTree) (found : CoreTable) (cpu : UInt32) : CoreTable :=
  match t.place? cpu with
  | some p => Table.put p ((Table.find? p found).getD [] ++ [cpu]) found
  | none => found

/-- Put a core behind those of the last socket, or on a socket of its own if the last one has
another id. -/
def addCore (layout : List Socket) (entry : CorePlace × List UInt32) : List Socket :=
  let core : Core := ⟨entry.1.core, entry.2⟩
  match layout.getLast? with
  | none => [⟨entry.1.socket, [core]⟩]
  | some last =>
    if last.id = entry.1.socket then
      layout.dropLast ++ [{ last with cores := last.cores ++ [core] }]
    else layout ++ [⟨entry.1.socket, [core]⟩]

/-- The layout of a file tree, or what is wrong with it. -/
def sysfsLayout (t : FileTree) : Except Failure (List Socket) :=
  match t.number? ["kernel_max"] with
  | none => .error (.layoutUnavailable ("cannot read " ++ t.root ++ "/kernel_max"))
  | some kernelMax =>
    let found : CoreTable := (cpusUpTo kernelMax).foldl t.gather []
    .ok (found.foldl addCore [])

end WorkerBroker
