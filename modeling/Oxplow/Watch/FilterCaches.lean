import Mathlib.Data.List.Dedup
import Oxplow.Library.Machine
import Oxplow.Library.Table
import Oxplow.Watch.Filter

/-! `filter.rs`: one filter with its caches, shared by every clone. A judgment looks up, reads a
file and keeps what it made in steps of their own; so do the calls that clear the caches. -/

namespace Oxplow.Watch
open Library

abbrev Dir := List String

def maxRememberedDirs : Nat := 200000

/-- What a directory's ignore files say together, the lowest precedence first. -/
def combined (read : List (Option Patterns)) : Patterns := fun path isDir =>
  read.foldl (fun found file =>
    match file.elim .none fun patterns => patterns path isDir with
    | .none => found
    | found => found) .none

/-- The rules of a directory from what was read of its files: the root has the exclude files before its
`.gitignore`, another directory has at most its own. -/
def rulesFrom (dir : Dir) (read : List (Option Patterns)) : Option Patterns :=
  if dir.isEmpty then some (combined read) else read.head?.join

structure Shared where
  /-- What each ignore file of a directory says now, if it is there. -/
  files : Dir → List (Option Patterns)
  excludes : List FilterEntry
  includes : List FilterEntry
  rules : Table Dir (Option Patterns)
  chains : Table Dir (List Gitignore)
  dirs : Table Dir Bool

/-- A new filter with the present lists and files. -/
def Shared.present (s : Shared) : WorkspaceFilter := ⟨fun dir => rulesFrom dir (s.files dir), s.excludes, s.includes⟩

/-- A cache of directories starts over when it has too many. -/
def remember {ρ : Type} (cache : Table Dir ρ) (dir : Dir) (row : ρ) : Table Dir ρ :=
  if maxRememberedDirs ≤ cache.keys.dedup.length then Table.insert [] dir row else cache.insert dir row

/-! ## `chain_of` -/

def rulesIn (dir : Dir) (patterns : Option Patterns) : List Gitignore := (patterns.map fun patterns => ⟨dir, patterns⟩).toList

/-- Where `chain_of` stands. It calls itself for the parent, so `callers` are the directories under
the one it is at whose chains wait for it, the nearest first. -/
inductive Chaining
  | look (dir : Dir) (callers : List Dir)
  /-- `rules_of`, with the chain above the directory. -/
  | rules (dir : Dir) (above : List Gitignore) (callers : List Dir)
  /-- It reads the directory's files, one after the other. -/
  | file (dir : Dir) (read : List (Option Patterns)) (above : List Gitignore) (callers : List Dir)
  | keepRules (dir : Dir) (patterns : Option Patterns) (above : List Gitignore) (callers : List Dir)
  | keepChain (dir : Dir) (chain : List Gitignore) (callers : List Dir)

/-- A caller goes on with the chain above it. -/
def return_ (chain : List Gitignore) : List Dir → Chaining ⊕ List Gitignore
  | [] => .inr chain
  | dir :: callers =>
    .inl (if dir.getLast? = some ".git" || (gitignoreDecision chain dir true).isIgnore then .keepChain dir chain callers
      else .rules dir chain callers)

def Chaining.step (s : Shared) : Chaining → Shared × (Chaining ⊕ List Gitignore)
  | .look dir callers =>
    match s.chains.get dir with
    | some chain => (s, return_ chain callers)
    | none => (s, .inl (if dir.isEmpty then .rules dir [] callers else .look dir.dropLast (dir :: callers)))
  | .rules dir above callers =>
    match s.rules.get dir with
    | some patterns => (s, .inl (.keepChain dir (above ++ rulesIn dir patterns) callers))
    | none => (s, .inl (.file dir [] above callers))
  | .file dir read above callers =>
    match (s.files dir)[read.length]? with
    | some patterns => (s, .inl (.file dir (read ++ [patterns]) above callers))
    | none => (s, .inl (.keepRules dir (rulesFrom dir read) above callers))
  | .keepRules dir patterns above callers =>
    ({ s with rules := s.rules.insert dir patterns }, .inl (.keepChain dir (above ++ rulesIn dir patterns) callers))
  | .keepChain dir chain callers => ({ s with chains := remember s.chains dir chain }, return_ chain callers)

/-! ## Judgments -/

inductive Call
  | change (path : Dir) (isDir : Bool)
  | ignore (path : Dir) (isDir : Bool)
  | inTrees (path : Dir) (isDir : Bool)

/-- What a filter says. -/
def WorkspaceFilter.decision (filter : WorkspaceFilter) : Call → Bool
  | .change path isDir => filter.ignoreChange path isDir
  | .ignore path isDir => filter.ignore path isDir
  | .inTrees path isDir => filter.ignoreInTrees path isDir

/-- What `decide` is to decide: a path, or the first of the directories above it. -/
inductive Task
  | ofPath (path : Dir) (isDir watching : Bool)
  | ofDir (dir : Dir) (rest : List Dir) (path : Dir) (isDir : Bool)

namespace Task

def at_ : Task → Dir
  | .ofPath path _ _ => path
  | .ofDir dir _ _ _ => dir

def isDir : Task → Bool
  | .ofPath _ isDir _ => isDir
  | .ofDir _ _ _ _ => true

def watching : Task → Bool
  | .ofPath _ _ watching => watching
  | .ofDir _ _ _ _ => true

end Task

/-- What `decide` makes of git's rules. -/
inductive Asks
  | ignored
  | notWhitelisted

def Asks.of : Asks → Match → Bool
  | .ignored, found => found.isIgnore
  | .notWhitelisted, found => !found.isWhitelist

/-- Where a judgment stands. -/
inductive Judging
  /-- `ignore_change` looks at the include list. -/
  | includes (path : Dir) (isDir : Bool)
  /-- `dir_ignored` looks up the directory. -/
  | lookDir (dir : Dir) (rest : List Dir) (path : Dir) (isDir : Bool)
  /-- `decide` looks at the lists. -/
  | entries (task : Task)
  | chaining (task : Task) (asks : Asks) (at_ : Chaining)
  /-- `dir_ignored` keeps its answer. -/
  | keepDir (dir : Dir) (ignored : Bool) (rest : List Dir) (path : Dir) (isDir : Bool)

/-- `decide` has decided. -/
def Task.finish : Task → Bool → Judging ⊕ Bool
  | .ofPath _ _ _, ignored => .inr ignored
  | .ofDir dir rest path isDir, ignored => .inl (.keepDir dir ignored rest path isDir)

def Task.chain (task : Task) (asks : Asks) : Judging ⊕ Bool := .inl (.chaining task asks (.look task.at_.dropLast []))

/-- `decide`, up to what it looks up. -/
def Task.decide (task : Task) : Judging ⊕ Bool :=
  match WorkspaceFilter.special task.at_ with
  | some (.oxplow none) => task.finish false
  | some (.oxplow (some next)) =>
    if next = "wiki" && task.watching then task.finish false
    else if next = "extensions" then if task.watching then task.finish false else task.chain .ignored
    else if task.isDir then task.finish true
    else task.chain .notWhitelisted
  | some .ignored => task.finish true
  | none => .inl (.entries task)

/-- `ignore_change` goes on with the directories that are left. -/
def dirsNext (path : Dir) (isDir : Bool) : List Dir → Judging ⊕ Bool
  | [] => (Task.ofPath path isDir true).decide
  | dir :: rest => .inl (.lookDir dir rest path isDir)

def dirAnswered (ignored : Bool) (rest : List Dir) (path : Dir) (isDir : Bool) : Judging ⊕ Bool :=
  if ignored then .inr true else dirsNext path isDir rest

def Call.judging : Call → Judging ⊕ Bool
  | .change path isDir => .inl (.includes path isDir)
  | .ignore path isDir => (Task.ofPath path isDir true).decide
  | .inTrees path isDir => (Task.ofPath path isDir false).decide

def Judging.step (s : Shared) : Judging → Shared × (Judging ⊕ Bool)
  | .includes path isDir =>
    (s, if s.includes.isEmpty then dirsNext path isDir (WorkspaceFilter.ancestors path) else (Task.ofPath path isDir true).decide)
  | .lookDir dir rest path isDir =>
    match s.dirs.get dir with
    | some ignored => (s, dirAnswered ignored rest path isDir)
    | none => (s, (Task.ofDir dir rest path isDir).decide)
  | .entries task =>
    (s, if matchesFilterEntries s.includes task.at_ then task.finish false
      else if matchesFilterEntries s.excludes task.at_ then task.finish true
      else if task.at_.isEmpty then task.finish false
      else task.chain .ignored)
  | .chaining task asks at_ =>
    let (s, next) := at_.step s
    (s, match next with
      | .inl at_ => .inl (.chaining task asks at_)
      | .inr chain => task.finish (asks.of (gitignoreDecision chain task.at_ task.isDir)))
  | .keepDir dir ignored rest path isDir => ({ s with dirs := remember s.dirs dir ignored }, dirAnswered ignored rest path isDir)

/-! ## Clones -/

/-- An ignore file: a path from the root, or one outside it. -/
structure IgnoreFile where
  path : List String
  absolute : Bool

def excludeFile : List String := [".git", "info", "exclude"]

/-- The directory whose rules it is part of. -/
def IgnoreFile.dir (file : IgnoreFile) : Dir := if file.absolute || excludeFile.isSuffixOf file.path then [] else file.path.dropLast

/-- The caches that `forget_decisions` has left to clear. -/
inductive Clearing
  | chains
  | dirs
  deriving DecidableEq

/-- A judgment under way; `later` says that it began when no change was under way and no judgment
from before the last one, and that none has come since. -/
structure Underway where
  call : Call
  later : Bool
  judging : Judging

structure Answered where
  call : Call
  later : Bool
  answer : Bool
  /-- The lists and the files at that time. -/
  present : WorkspaceFilter

structure Clones where
  shared : Shared
  /-- The directories whose ignore files were edited, and it is not noted. -/
  unnoted : List Dir
  clearing : List Clearing
  judgments : List Underway
  answers : List Answered

inductive ClonesEvent
  /-- One of the ignore files of a directory says something else. -/
  | edit (dir : Dir) (file : Nat) (patterns : Option Patterns)
  | note (file : IgnoreFile)
  | forget
  | setEntries (excludes includes : List FilterEntry)
  /-- `forget_decisions` of a call goes on. -/
  | clear (call : Nat)
  | begin (call : Call)
  | step (judgment : Nat)

namespace Clones

def start (files : Dir → List (Option Patterns)) (excludes includes : List FilterEntry) : Clones :=
  ⟨⟨files, excludes, includes, [], [], []⟩, [], [], [], []⟩

/-- What is under way is not later than this. -/
def outdated (judgments : List Underway) : List Underway := judgments.map fun j => { j with later := false }

/-- A judgment goes on from a step, or has its answer. -/
def proceed (s : Clones) (shared : Shared) (before after : List Underway) (call : Call) (later : Bool) : Judging ⊕ Bool → Clones
  | .inl judging => { s with shared, judgments := before ++ ⟨call, later, judging⟩ :: after }
  | .inr answer => { s with shared, judgments := before ++ after, answers := s.answers ++ [⟨call, later, answer, shared.present⟩] }

def step (s : Clones) : ClonesEvent → Option (Clones × Unit)
  | .edit dir file patterns =>
    let files := Function.update s.shared.files dir ((s.shared.files dir).set file patterns)
    some ({ s with shared := { s.shared with files }, unnoted := dir :: s.unnoted, judgments := outdated s.judgments }, ())
  | .note file =>
    if file.dir ∈ s.unnoted then
      some ({ s with
        shared := { s.shared with rules := s.shared.rules.delete fun dir => dir = file.dir }
        unnoted := s.unnoted.filter fun dir => dir ≠ file.dir
        clearing := s.clearing ++ [.chains] }, ())
    else none
  | .forget =>
    some ({ s with
      shared := { s.shared with rules := [] }
      unnoted := []
      clearing := s.clearing ++ [.chains]
      judgments := outdated s.judgments }, ())
  | .setEntries excludes includes =>
    if s.shared.excludes = excludes ∧ s.shared.includes = includes then none
    else some ({ s with
      shared := { s.shared with excludes, includes }
      clearing := s.clearing ++ [.chains]
      judgments := outdated s.judgments }, ())
  | .clear call =>
    match s.clearing[call]? with
    | some .chains => some ({ s with shared := { s.shared with chains := [] }, clearing := s.clearing.set call .dirs }, ())
    | some .dirs => some ({ s with shared := { s.shared with dirs := [] }, clearing := s.clearing.eraseIdx call }, ())
    | none => none
  | .begin call =>
    let later := s.unnoted.isEmpty && s.clearing.isEmpty && s.judgments.all (·.later)
    some (s.proceed s.shared s.judgments [] call later call.judging, ())
  | .step judgment =>
    match s.judgments[judgment]? with
    | none => none
    | some j =>
      let (shared, next) := j.judging.step s.shared
      some (s.proceed shared (s.judgments.take judgment) (s.judgments.drop (judgment + 1)) j.call j.later next, ())

end Clones

end Oxplow.Watch
