import Oxplow.Library.Walks

/-! `filter.rs`: whether a workspace path is ignored. A path is its names from the root. What
the patterns of an ignore file say of one path is given; how they are asked is not. -/

namespace Oxplow.Watch
open Library

inductive Match where
  | none
  | ignore
  | whitelist
  deriving DecidableEq

namespace Match

def isIgnore : Match → Bool
  | ignore => true
  | _ => false

def isWhitelist : Match → Bool
  | whitelist => true
  | _ => false

end Match

/-- What the patterns of an ignore file match, by a path from its directory and whether it is
a directory. -/
abbrev Patterns := List String → Bool → Match

structure Gitignore where
  path : List String
  patterns : Patterns

namespace Gitignore

/-- The first match of the parents of a path, whose names are given last one first. -/
def anyParents (patterns : Patterns) : List String → Match
  | [] => .none
  | _ :: parent =>
    match patterns parent.reverse true with
    | .none => anyParents patterns parent
    | found => found

def matchedPathOrAnyParents (gi : Gitignore) (path : List String) (isDir : Bool) : Match :=
  let path := path.drop gi.path.length
  match gi.patterns path isDir with
  | .none => anyParents gi.patterns path.reverse
  | found => found

end Gitignore

inductive FilterEntry where
  | segment (name : String)
  | path (names : List String)
  deriving DecidableEq

def matchesFilterEntries (entries : List FilterEntry) (path : List String) : Bool :=
  entries.any fun
    | .segment name => path.contains name
    | .path names => names.isPrefixOf path

/-- Deeper rules override shallower ones. -/
def gitignoreDecision (gitignores : List Gitignore) (path : List String) (isDir : Bool) : Match :=
  gitignores.foldl (fun decision gi =>
    if gi.path.isPrefixOf path then
      match gi.matchedPathOrAnyParents path isDir with
      | .none => decision
      | found => found
    else decision) .none

def defaultIgnoredSegments : List String := [".git"]

/-- The ignore files, each with its directory, and the two lists of the user. -/
structure WorkspaceFilter where
  rules : List String → Option Patterns
  excludes : List FilterEntry
  includes : List FilterEntry

namespace WorkspaceFilter

variable (filter : WorkspaceFilter)

def rulesOf (dir : List String) : List Gitignore := ((filter.rules dir).map fun patterns => ⟨dir, patterns⟩).toList

/-- The rules on the way down from `dir`, whose own are `above`. -/
def chainFrom (above : List Gitignore) (dir : List String) : List String → List Gitignore
  | [] => above
  | name :: names =>
    let next := dir ++ [name]
    if name = ".git" || (gitignoreDecision above next true).isIgnore then chainFrom above next names
    else chainFrom (above ++ filter.rulesOf next) next names

/-- The rules that judge a path directly in `dir`, without those of an ignored directory. -/
def chainOf (dir : List String) : List Gitignore := filter.chainFrom (filter.rulesOf []) [] dir

def gitDecision (path : List String) (isDir : Bool) : Match := gitignoreDecision (filter.chainOf path.dropLast) path isDir

/-- Oxplow's own directory or git's, where a path first comes to one of them. -/
inductive Special where
  | oxplow (next : Option String)
  | ignored

def special : List String → Option Special
  | [] => none
  | name :: names =>
    if name = ".oxplow" then some (.oxplow names.head?)
    else if defaultIgnoredSegments.contains name then some .ignored
    else special names

/-- What the user's lists and the ignore files say. -/
def decideRules (path : List String) (isDir : Bool) : Bool :=
  if matchesFilterEntries filter.includes path then false
  else if matchesFilterEntries filter.excludes path then true
  else !path.isEmpty && (filter.gitDecision path isDir).isIgnore

def decide (path : List String) (isDir watching : Bool) : Bool :=
  match special path with
  | some (.oxplow none) => false
  | some (.oxplow (some next)) =>
    if next = "wiki" && watching then false
    else if next = "extensions" then !watching && (filter.gitDecision path isDir).isIgnore
    else if isDir then true
    else !(filter.gitDecision path isDir).isWhitelist
  | some .ignored => true
  | none => filter.decideRules path isDir

def ignore (path : List String) (isDir : Bool) : Bool := filter.decide path isDir true

def ignoreInTrees (path : List String) (isDir : Bool) : Bool := filter.decide path isDir false

/-- The directories above a path, the root not counted, the shallowest first. -/
def ancestors (path : List String) : List (List String) := (List.range' 1 (path.length - 1)).map fun n => path.take n

/-- `ignore` for a path that a watch reported. -/
def ignoreChange (path : List String) (isDir : Bool) : Bool :=
  if filter.includes.isEmpty && (ancestors path).any (filter.ignore · true) then true else filter.ignore path isDir

/-- The files that a walk reaches and keeps which prunes where `ignore` drops. -/
def sweep (tree : List (PathTree String)) : List (List String) := prunedWalk filter.ignore [] tree

/-- The files of a stored tree, as `Trees::cells` filters them. -/
def cells (files : List (List String)) : List (List String) := files.filter fun path => !filter.ignoreInTrees path false

/-- The files of the working tree, as `Trees::working_cells` walks it. -/
def workingCells (tree : List (PathTree String)) : List (List String) := prunedWalk filter.ignoreInTrees [] tree

end WorkspaceFilter

end Oxplow.Watch
