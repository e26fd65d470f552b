import Std.Data.ExtTreeMap
import Oxplow.Harnesses.Claude
import Oxplow.Uri.OxplowUri

/-! `commands/mod.rs`: the commands that are registered, who registered each and who holds
each namespace. A revision stands for the identity of an allocation: no two are the same
while either is held. What `str::to_lowercase` gives and which extensions are bundled are
parameters. -/

namespace Oxplow.Commands
open Std

structure CommandUi where
  shortcut : Option String
  when : Option String
  deriving DecidableEq

structure CommandSpec where
  id : String
  ui : Option CommandUi
  deriving DecidableEq

structure Command where
  spec : CommandSpec
  deriving DecidableEq

inductive CommandError where
  | invalid (field : Option String) (message : String)
  | unavailable (message : String)
  deriving DecidableEq

/-! ## Command ids -/

def oxplowNamespace : String := "oxplow"

def coreSource : String := "core"

def segments (id : String) : List (List Char) := id.toList.splitOn '.'

def namespaceOf (id : String) : String := String.ofList ((segments id).headD [])

def validateTypeName (name : String) : Bool := decide (2 ≤ (segments name).length) && (segments name).all Uri.isName

/-- A command id is three segments, each in snake case. -/
def validateId (id : String) : Except String Unit :=
  if (segments id).length = 3 ∧ validateTypeName id = true then .ok ()
  else .error (s!"invalid value: command id `{id}` must be `<namespace>.<area>.<verb>` in snake_case " ++
    "(e.g. `oxplow.work_item.transition`)")

/-! ## The registry -/

structure Registry where
  /-- It changes with every change of the registry. -/
  revision : Nat
  commands : ExtTreeMap String Command
  sources : ExtTreeMap String String
  holders : ExtTreeMap String String

structure NamespaceCommands where
  space : String
  source : String
  commands : List Command

structure NamespaceRefusal where
  source : String
  holder : Option String
  error : CommandError

/-- What the registry reads of the rest of the program. -/
structure Setting where
  lowercase : String → String
  /-- A source that is an extension built into oxplow. -/
  bundled : String → Bool

variable (setting : Setting)

def Setting.shipsWithOxplow (source : String) : Bool := source == coreSource || setting.bundled source

/-- A shortcut with the condition it holds under. -/
def Setting.shortcutOf (spec : CommandSpec) : Option (String × Option String) :=
  spec.ui.bind fun ui =>
    ui.shortcut.map fun key =>
      (setting.lowercase key, ui.when.map fun condition => String.ofList (condition.toList.filter fun c => !Harnesses.isWhitespace c))

namespace Registry

def empty (revision : Nat) : Registry := ⟨revision, ∅, ∅, ∅⟩

def owner (registry : Registry) (space : String) : Option String := registry.holders[space]?

/-- Why a source may not have commands under a namespace. -/
def refusal (registry : Registry) (space source : String) : Option CommandError :=
  if space = oxplowNamespace then
    if setting.shipsWithOxplow source = true then none
    else some (.invalid none s!"the command namespace `{space}` is reserved for oxplow's own commands")
  else
    match registry.owner space with
    | some held =>
      if held = source then none else some (.invalid none s!"the command namespace `{space}` is already {held}'s")
    | none => none

/-- The first command, registered or in the batch with another id, that has a shortcut. -/
def held (registry : Registry) (batch : List Command) (id : String) (key : String × Option String) : Option CommandSpec :=
  (registry.commands.toList.map (·.2.spec) ++ (batch.map (·.spec)).filter fun spec => spec.id ≠ id).find? fun other =>
    setting.shortcutOf other == some key

/-- Why a command of a batch does not fit, after the batch's ids in `seen`. -/
def misfit (registry : Registry) (space : String) (batch : List Command) (seen : List String) (command : Command) : Option CommandError :=
  let id := command.spec.id
  if id ∈ seen then some (.invalid (some "/name") s!"command `{id}` is declared more than once")
  else
    match validateId id with
    | .error message => some (.invalid (some "/name") message)
    | .ok () =>
      if namespaceOf id ≠ space then some (.invalid (some "/name") s!"`{id}` isn't under `{space}`")
      else if id ∈ registry.commands then some (.invalid (some "/name") s!"command `{id}` is already registered")
      else
        (setting.shortcutOf command.spec).bind fun key =>
          (held setting registry batch id key).map fun other =>
            .invalid (some "/ui/shortcut")
              (s!"`{other.id}` already runs on {key.1} under the same `when`; give `{id}` another key, " ++
                "or a `when` that tells them apart")

/-- The first misfit among the commands, after the ids in `seen`. -/
def misfits (registry : Registry) (space : String) (batch : List Command) : List String → List Command → Option CommandError
  | _, [] => none
  | seen, command :: rest =>
    match misfit setting registry space batch seen command with
    | some error => some error
    | none => misfits registry space batch (command.spec.id :: seen) rest

def holder (space source : String) : String := if space = oxplowNamespace then oxplowNamespace else source

def insert (registry : Registry) (source : String) (command : Command) : Registry :=
  { registry with
    sources := registry.sources.insert command.spec.id source
    commands := registry.commands.insert command.spec.id command }

/-- The commands go in, and their namespace is held. -/
def put (registry : Registry) (fresh : Nat) (space source : String) (commands : List Command) : Registry :=
  let held := { registry with holders := registry.holders.insert space (holder space source) }
  { commands.foldl (fun registry command => registry.insert source command) held with revision := fresh }

/-- All of the commands or none; `fresh` is the identity that the change takes. -/
def add (registry : Registry) (fresh : Nat) (space source : String) (commands : List Command) : Except CommandError Unit × Registry :=
  match refusal setting registry space source with
  | some error => (.error error, registry)
  | none =>
    match misfits setting registry space commands [] commands with
    | some error => (.error error, registry)
    | none => (.ok (), registry.put fresh space source commands)

def remove (registry : Registry) (id : String) : Registry :=
  { registry with commands := registry.commands.erase id, sources := registry.sources.erase id }

/-- The ids that a source registered. -/
def idsOf (registry : Registry) (source : String) : List String :=
  (registry.sources.toList.filter fun entry => entry.2 == source).map (·.1)

/-- Let go of the namespaces without a command. -/
def release (registry : Registry) : Registry :=
  let held := registry.commands.keys.map namespaceOf
  { registry with holders := registry.holders.filter fun space _ => held.contains space }

def removeSource (registry : Registry) (fresh : Nat) (source : String) : List String × Registry :=
  let ids := registry.idsOf source
  (ids, { (ids.foldl remove registry).release with revision := fresh })

/-- The first source that comes twice, after those in `seen`. -/
def repeated : List String → List NamespaceCommands → Option String
  | _, [] => none
  | seen, replacement :: rest =>
    if replacement.source ∈ seen then some replacement.source else repeated (replacement.source :: seen) rest

/-- Who a replacement would collide with: who holds its namespace, or else the source of an
id that it repeats. -/
def collides (candidate : Registry) (replacement : NamespaceCommands) : Option String :=
  ((candidate.owner replacement.space).filter fun held => held ≠ replacement.source ∧ held ≠ oxplowNamespace).or
    (replacement.commands.findSome? fun command => candidate.sources[command.spec.id]?)

def addAll (fresh : Nat) : List NamespaceCommands → Registry → Except NamespaceRefusal Registry
  | [], candidate => .ok candidate
  | replacement :: rest, candidate =>
    if replacement.commands = [] then addAll fresh rest candidate
    else
      match add setting candidate fresh replacement.space replacement.source replacement.commands with
      | (.error error, _) => .error ⟨replacement.source, collides candidate replacement, error⟩
      | (.ok (), next) => addAll fresh rest next

/-- The registry with several sources replaced together: all that they had goes first. -/
def replacing (registry : Registry) (fresh : Nat) (replacements : List NamespaceCommands) : Except NamespaceRefusal Registry :=
  match repeated [] replacements with
  | some source =>
    .error ⟨source, none, .invalid (some "/source") "a command source may be replaced only once in a batch"⟩
  | none =>
    let cleared := replacements.foldl (fun candidate replacement => (candidate.removeSource fresh replacement.source).2) registry
    (addAll setting fresh replacements cleared).map fun candidate => { candidate with revision := fresh }

end Registry

/-! ## The bus -/

/-- A registry made ready, and the revision it was made from. -/
structure PreparedNamespaces where
  base : Nat
  candidate : Registry

structure Bus where
  registry : Registry
  /-- How many revisions were made. -/
  revisions : Nat
  /-- The publications that callers have ready, in the order they were prepared. -/
  prepared : List PreparedNamespaces

inductive Operation
  | register (command : Command)
  | registerNamespace (space source : String) (commands : List Command)
  | replaceNamespaces (replacements : List NamespaceCommands)
  | unregisterSource (source : String)
  | prepareNamespaces (replacements : List NamespaceCommands)
  /-- Publish what was prepared as the `index`th. -/
  | publishNamespaces (index : Nat)

/-- A namespace is registered with at least one command. -/
def Operation.named : Operation → Bool
  | .registerNamespace _ _ commands => !commands.isEmpty
  | _ => true

namespace Bus

def start : Bus := ⟨.empty 0, 1, []⟩

def register (bus : Bus) (command : Command) : Except CommandError Unit × Bus :=
  let answer := bus.registry.add setting bus.revisions (namespaceOf command.spec.id) coreSource [command]
  (answer.1, { bus with registry := answer.2, revisions := bus.revisions + 1 })

def registerNamespace (bus : Bus) (space source : String) (commands : List Command) : Except CommandError Unit × Bus :=
  let answer := bus.registry.add setting bus.revisions space source commands
  (answer.1, { bus with registry := answer.2, revisions := bus.revisions + 1 })

def replaceNamespaces (bus : Bus) (replacements : List NamespaceCommands) : Except CommandError Unit × Bus :=
  match bus.registry.replacing setting bus.revisions replacements with
  | .error refusal => (.error refusal.error, { bus with revisions := bus.revisions + 1 })
  | .ok registry => (.ok (), { bus with registry, revisions := bus.revisions + 1 })

def unregisterSource (bus : Bus) (source : String) : Bus :=
  { bus with registry := (bus.registry.removeSource bus.revisions source).2, revisions := bus.revisions + 1 }

def prepareNamespaces (bus : Bus) (replacements : List NamespaceCommands) : Except NamespaceRefusal Unit × Bus :=
  match bus.registry.replacing setting bus.revisions replacements with
  | .error refusal => (.error refusal, { bus with revisions := bus.revisions + 1 })
  | .ok candidate =>
    (.ok (), { bus with revisions := bus.revisions + 1, prepared := bus.prepared ++ [⟨bus.registry.revision, candidate⟩] })

def publishNamespaces (bus : Bus) (prepared : PreparedNamespaces) : Except CommandError Unit × Bus :=
  if bus.registry.revision = prepared.base then (.ok (), { bus with registry := prepared.candidate })
  else (.error (.unavailable "the command registry changed while its replacement was staged"), bus)

/-- What an operation does, and whether it was accepted. -/
def apply (bus : Bus) : Operation → Bool × Bus
  | .register command => (bus.register setting command).map (·.isOk) id
  | .registerNamespace space source commands => (bus.registerNamespace setting space source commands).map (·.isOk) id
  | .replaceNamespaces replacements => (bus.replaceNamespaces setting replacements).map (·.isOk) id
  | .unregisterSource source => (true, bus.unregisterSource source)
  | .prepareNamespaces replacements => (bus.prepareNamespaces setting replacements).map (·.isOk) id
  | .publishNamespaces index =>
    match bus.prepared[index]? with
    | some prepared => (bus.publishNamespaces prepared).map (·.isOk) id
    | none => (false, bus)

/-- One operation; it always gives an answer. -/
def step (bus : Bus) (operation : Operation) : Option (Bus × Bool) :=
  some ((bus.apply setting operation).2, (bus.apply setting operation).1)

end Bus

end Oxplow.Commands
