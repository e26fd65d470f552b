import Oxplow.Library.Covers
import Oxplow.Library.Machine

/-! `pending.rs`: what a subscriber has not read yet. Paths are their components, by which the
source compares them. -/

namespace Oxplow.Watch
open Library

inductive Component where
  | rootDir
  | curDir
  | parentDir
  | normal (name : String)
  deriving DecidableEq

abbrev Path := List Component

namespace Path

/-- `Path::starts_with`. -/
abbrev Under (dir path : Path) : Prop := dir <+: path

def stripPrefix (path root : Path) : Option Path := if root <+: path then some (path.drop root.length) else none

def parent (path : Path) : Option Path :=
  match path.getLast? with
  | none => none
  | some .rootDir => none
  | some _ => some path.dropLast

end Path

inductive WatchEventKind where
  | created
  | modified
  | removed
  | other
  deriving DecidableEq

def maxPendingPaths : Nat := 20000

structure Batch where
  paths : List (Path × WatchEventKind)
  rescans : List Path
  deriving DecidableEq

structure Pending where
  paths : List (Path × WatchEventKind)
  rescans : List Path
  closed : Bool
  /-- What a path can collapse to the top-level directories of. -/
  roots : List Path
  deriving DecidableEq

namespace Pending

def new (roots : List Path) : Pending := ⟨[], [], false, roots⟩

/-- The rescans stay free of a directory inside another. -/
def insertRescan (state : Pending) (dir : Path) : Pending :=
  if state.rescans.any (fun have_ => decide (have_ <+: dir)) = true then state
  else
    { state with
      rescans := Tops.insert Path.Under state.rescans dir
      paths := state.paths.filter fun entry => !decide (dir <+: entry.1) }

/-- The top-level directory that holds `path`. -/
def topOf (path : Path) : List Path → Path
  | [] => path.parent.getD path
  | root :: roots =>
    match path.stripPrefix root with
    | some (first :: _ :: _) => root ++ [first]
    | some _ => root
    | none => topOf path roots

def collapse (state : Pending) : Pending :=
  (state.paths.map Prod.fst).foldl (fun emptied path => emptied.insertRescan (topOf path state.roots)) { state with paths := [] }

def setPath (paths : List (Path × WatchEventKind)) (path : Path) (kind : WatchEventKind) : List (Path × WatchEventKind) :=
  if path ∈ paths.map Prod.fst then paths.map fun entry => if entry.1 = path then (path, kind) else entry else paths ++ [(path, kind)]

def change (state : Pending) (path : Path) (kind : WatchEventKind) : Pending :=
  if state.rescans.any (fun dir => decide (dir <+: path)) = true then state
  else
    let changed := { state with paths := setPath state.paths path kind }
    if maxPendingPaths < changed.paths.length then changed.collapse else changed

/-- What a read takes, unless it is nothing and the watch is gone. -/
def take (state : Pending) : Pending × Option Batch :=
  let batch : Batch := ⟨state.paths, state.rescans⟩
  let left := { state with paths := [], rescans := [] }
  if batch.paths = [] ∧ batch.rescans = [] ∧ state.closed = true then (left, none) else (left, some batch)

end Pending

/-! ## Steps -/

inductive PendingOp where
  | change (path : Path) (kind : WatchEventKind)
  | rescan (dir : Path)
  | close
  | take
  deriving DecidableEq

namespace Pending

def step (state : Pending) : PendingOp → Option (Pending × Option Batch)
  | .change path kind => some (state.change path kind, none)
  | .rescan dir => some (state.insertRescan dir, none)
  | .close => some ({ state with closed := true }, none)
  | .take => some state.take

def run (state : Pending) (ops : List PendingOp) : Pending := Machine.run step state ops

end Pending

end Oxplow.Watch

/-! `pending.rs`: which of a watch's changes and rescans each subscription hears. Names are text;
the listeners are those whose subscription still lives. -/

namespace Oxplow.Watch

namespace Component

def text : Component → String
  | .rootDir => ""
  | .curDir => "."
  | .parentDir => ".."
  | .normal name => name

end Component

namespace Path

/-- `Path::to_string_lossy`. -/
def text : Path → String
  | [.rootDir] => "/"
  | path => String.intercalate "/" (path.map Component.text)

end Path

/-- What a subscription hears beyond, or instead of, every kept path: named paths from the root. -/
structure Scope where
  files : List Path
  dirs : List Path
  prefixes : List String
  topLevel : Bool
  allKept : Bool
  deriving DecidableEq

namespace Scope

def default : Scope := ⟨[], [], [], false, false⟩

def file (scope : Scope) (rel : Path) : Scope := { scope with files := scope.files ++ [rel] }

def dir (scope : Scope) (rel : Path) : Scope := { scope with dirs := scope.dirs ++ [rel] }

def withPrefix (scope : Scope) (start : String) : Scope := { scope with prefixes := scope.prefixes ++ [start] }

def withAllKept (scope : Scope) : Scope := { scope with allKept := true }

def withTopLevel (scope : Scope) : Scope := { scope with topLevel := true }

def covers (scope : Scope) (rel : Path) : Bool :=
  scope.files.any (fun file => decide (file = rel)) ||
    scope.dirs.any (fun dir => decide (dir <+: rel)) ||
    (scope.topLevel && decide (rel.length = 1)) ||
    scope.prefixes.any fun start => decide (start.toList <+: rel.text.toList)

/-- Whether changes lost under `dir` could be this scope's. -/
def overlaps (scope : Scope) (dir : Path) : Bool :=
  scope.allKept || decide (dir = []) ||
    scope.files.any (fun file => decide (dir <+: file)) ||
    scope.dirs.any fun mine => decide (dir <+: mine) || decide (mine <+: dir)

end Scope

structure Listener where
  pending : Pending
  scope : Option Scope
  deriving DecidableEq

/-- Everyone listening to one watch. -/
structure Subscribers where
  roots : List Path
  /-- What a rescan of everything checks. -/
  whole : List Path
  list : List Listener
  deriving DecidableEq

namespace Subscribers

def new (roots whole : List Path) : Subscribers := ⟨roots, whole, []⟩

def subscribe (all : Subscribers) (scope : Option Scope) : Subscribers :=
  { all with list := all.list ++ [⟨Pending.new all.roots, scope⟩] }

def relative (roots : List Path) (path : Path) : Option Path := roots.findSome? path.stripPrefix

/-- `kept`: the filter keeps it, so everyone with no scope hears it. -/
def hearsChange (roots : List Path) (scope : Option Scope) (path : Path) (kept : Bool) : Bool :=
  match scope with
  | none => kept
  | some scope => (kept && scope.allKept) || (relative roots path).any scope.covers

def hearsRescan (roots : List Path) (scope : Option Scope) (dir : Path) : Bool :=
  match scope, relative roots dir with
  | some scope, some rel => scope.overlaps rel
  | _, _ => true

def change (all : Subscribers) (path : Path) (kind : WatchEventKind) (kept : Bool) : Subscribers :=
  { all with
    list := all.list.map fun listener =>
      if hearsChange all.roots listener.scope path kept = true then { listener with pending := listener.pending.change path kind }
      else listener }

def rescan (all : Subscribers) (dir : Path) : Subscribers :=
  { all with
    list := all.list.map fun listener =>
      if hearsRescan all.roots listener.scope dir = true then { listener with pending := listener.pending.insertRescan dir }
      else listener }

def rescanAll (all : Subscribers) : Subscribers := all.whole.foldl rescan all

def close (all : Subscribers) : Subscribers :=
  { all with list := all.list.map fun listener => { listener with pending := { listener.pending with closed := true } } }

end Subscribers

end Oxplow.Watch
