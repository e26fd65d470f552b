import Mathlib.Data.String.Basic

/-! `permissions.rs`: what an extension may reach beyond the baseline, as the list its manifest
declares. -/

namespace Oxplow.Extensions

/-- Ad-hoc read-only SQL. -/
inductive SqlAccess where
  | read
  deriving DecidableEq

/-- The project's files. `write` includes `read`. -/
inductive FilesAccess where
  | read | write
  deriving DecidableEq, Ord

namespace FilesAccess

/-- Declaration order. -/
def lt (a b : FilesAccess) : Bool := compare a b == .lt

end FilesAccess

structure Permissions where
  sql : Option SqlAccess
  commands : List String
  files : Option FilesAccess
  ai : Bool
  network : List String
  process : Bool
  secrets : List String
  agent : Bool
  deriving DecidableEq

/-! ## Patterns -/

/-- `split('.')`. -/
def segments (pattern : String) : List String := (pattern.toList.splitOn '.').map String.ofList

/-- Segment by segment, `*` one segment, `**` every one left. -/
def walk : List String → List String → Bool
  | [], [] => true
  | [], _ :: _ => false
  | w :: _, [] => w == "**"
  | w :: want, h :: given => w == "**" || ((w == "*" || w == h) && walk want given)

/-- Does command pattern `pattern` cover `name` (itself a name or a pattern). -/
def patternCovers (pattern name : String) : Bool := walk (segments pattern) (segments name)

/-- Does host pattern `pattern` cover `host` (a host or a pattern). -/
def hostCovers (pattern host : String) : Bool :=
  if "*.".toList.isPrefixOf pattern.toList then ('.' :: pattern.toList.drop 2).isSuffixOf host.toList else pattern == host

namespace Permissions

/-- Absent fields grant nothing. -/
def default : Permissions := ⟨none, [], none, false, [], false, [], false⟩

/-- Is `want` more than `given`. -/
def filesMissing (want given : Option FilesAccess) : Bool :=
  want.any fun want => given.all fun given => given.lt want

/-- `key:item`, each quoted, in one line. -/
def list (key : String) (items : List String) : String := ", ".intercalate (items.map fun item => "`" ++ key ++ ":" ++ item ++ "`")

/-- What `needed` asks that isn't granted here, each as the manifest would list it. -/
def missing (self needed : Permissions) : List String :=
  let commands := needed.commands.filter fun c => !self.commands.any fun p => patternCovers p c
  let hosts := needed.network.filter fun h => !self.network.any fun p => hostCovers p h
  let secrets := needed.secrets.filter fun s => !self.secrets.contains s
  (if needed.sql.isSome && self.sql.isNone then ["`sql.read`"] else []) ++
    (if commands.isEmpty then [] else [list "commands" commands]) ++
    (if filesMissing needed.files self.files then
      [if needed.files = some .write then "`files.write`" else "`files.read`"] else []) ++
    (if needed.ai && !self.ai then ["`ai.compute`"] else []) ++
    (if hosts.isEmpty then [] else [list "network" hosts]) ++
    (if needed.process && !self.process then ["`process.run`"] else []) ++
    (if secrets.isEmpty then [] else [list "secrets" secrets]) ++
    (if needed.agent && !self.agent then ["`agent.write`"] else [])

/-- Everything `needed` asks is granted here. -/
def covers (self needed : Permissions) : Bool := (self.missing needed).isEmpty

/-- The line of `addedOver` about files. -/
def filesAdded : Option FilesAccess → Option FilesAccess → List String
  | some .write, some .write => []
  | some .write, _ => ["files — may read and write the project's files"]
  | some .read, none => ["files — may read the project's files"]
  | _, _ => []

/-- What `self` grants beyond `baseline`, one line a person reads per permission. -/
def addedOver (self baseline : Permissions) : List String :=
  let hosts := self.network.filter fun h => !baseline.network.any fun p => hostCovers p h
  let secrets := self.secrets.filter fun s => !baseline.secrets.contains s
  let commands := self.commands.filter fun c => !baseline.commands.any fun p => patternCovers p c
  (if self.process && !baseline.process then
      ["process — runs programs with your authority; oxplow does not confine them"] else []) ++
    (if hosts.isEmpty then [] else ["network — may reach " ++ ", ".intercalate hosts]) ++
    (if secrets.isEmpty then [] else ["secrets — may read " ++ ", ".intercalate secrets]) ++
    (if self.ai && !baseline.ai then ["ai — may call your AI provider with your key"] else []) ++
    (if self.sql.isSome && baseline.sql.isNone then ["sql — may run its own SQL over your data"] else []) ++
    filesAdded self.files baseline.files ++
    (if commands.isEmpty then [] else ["commands — may run " ++ ", ".intercalate commands]) ++
    (if self.agent && !baseline.agent then ["agent — may add skills, advisories and prompts to your agent"] else [])

/-- `mine`, and what of `theirs` it doesn't hold. -/
def joined (mine theirs : List String) : List String :=
  theirs.foldl (fun mine item => if mine.contains item then mine else mine ++ [item]) mine

/-- The more of two. -/
def filesMax (a b : Option FilesAccess) : Option FilesAccess := if filesMissing b a then b else a

/-- Everything `self` or `other` grants. -/
def union (self other : Permissions) : Permissions where
  sql := self.sql.or other.sql
  commands := joined self.commands other.commands
  files := filesMax self.files other.files
  ai := self.ai || other.ai
  network := joined self.network other.network
  process := self.process || other.process
  secrets := joined self.secrets other.secrets
  agent := self.agent || other.agent

/-- May an extension whose namespace is `ownNamespace` run command `id`: one of its own, or one
a `commands` pattern names. -/
def commandAllowed (self : Permissions) (ownNamespace id : String) : Bool :=
  (ownNamespace.toList.isPrefixOf id.toList && ['.'].isPrefixOf (id.toList.drop ownNamespace.toList.length)) ||
    self.commands.any fun p => patternCovers p id

/-- May its programs reach `host`. -/
def hostAllowed (self : Permissions) (host : String) : Bool := self.network.any fun p => hostCovers p host

end Permissions
end Oxplow.Extensions
