import Oxplow.Library.Maps
import Oxplow.Library.Machine

/-! `buffers.ts`: the working tree's open files, one buffer per stream and path. Each operation
is cut at its awaits, and the steps of all of them come in any order. A stream's id holds no
line break, so the key of a buffer is its stream and path. -/

namespace Oxplow.Editor
open Library

/-- Whether `path` is `root` or something inside it. -/
def isUnder (path root : String) : Bool := path == root || (root.toList ++ ['/']).isPrefixOf path.toList

def movedPath (path from_ to_ : String) : String :=
  if isUnder path from_ then to_ ++ String.ofList (path.toList.drop from_.toList.length) else path

structure Key where
  stream : String
  path : String
  deriving DecidableEq

inductive BufferState where
  | loading
  | ready
  | missing
  | unshown
  | error
  deriving DecidableEq

structure Buffer where
  stream : String
  path : String
  saved : String
  draft : String
  state : BufferState
  error : Option String
  saving : Bool
  conflict : Option String
  deriving DecidableEq

def Buffer.key (b : Buffer) : Key := ⟨b.stream, b.path⟩

/-- It holds edits not yet saved. -/
def isDirty (b : Buffer) : Bool := b.state == .ready && b.draft != b.saved

/-- A model, and whether it and the listener that writes its buffer's draft are disposed. -/
structure ModelHandle where
  text : String
  disposed : Bool
  deriving DecidableEq

inductive FileRead where
  | text (text : String)
  | unshown (reason : String)
  deriving DecidableEq

/-- Where a buffer's `load` is: at its read, at its model, after it, at its `finally`, or done. -/
inductive Loading where
  | reading
  | attaching (saved draft : String)
  | attached (saved draft : String)
  | settling
  | done
  deriving DecidableEq

/-- The draft on its way that isn't the saved text. -/
def Loading.brings : Loading → Option String
  | .attaching saved draft | .attached saved draft => if draft = saved then none else some draft
  | .reading | .settling | .done => none

/-- A buffer that a rename moved: the services that hear it is open, and the text of the model
it waits for. -/
structure Move where
  services : Nat
  awaited : Option String
  deriving DecidableEq

/-- A `diskChanged` under way: what it read, and how many saves had ended then. -/
structure Look where
  key : Key
  seen : Option (Option FileRead × Nat)
  deriving DecidableEq

/-- A buffer, with every call that is at an await with it. -/
structure Held where
  buffer : Buffer
  /-- Every model made for it. -/
  models : List ModelHandle
  model : Option Nat
  /-- What its `load` was given: the file, the stream's services, and whether `open` waits. -/
  key : Key
  services : Nat
  opening : Bool
  load : Loading
  moves : List Move
  /-- What each save writes. -/
  saves : List String
  looks : List Look
  /-- How many saves ended, and how many had when the saved text was saved or read. -/
  ended : Nat
  asOf : Nat
  deriving DecidableEq

namespace Held

def start (key : Key) (services : Nat) (given : Option (String × String)) : Held where
  buffer := ⟨key.stream, key.path, "", "", .loading, none, false, none⟩
  models := []
  model := none
  key
  services
  opening := given.isNone
  load := given.elim .reading fun texts => .attaching texts.1 texts.2
  moves := []
  saves := []
  looks := []
  ended := 0
  asOf := 0

def attach (h : Held) (text : String) : Held :=
  { h with models := h.models ++ [⟨text, false⟩], model := some h.models.length }

/-- `h.off?.dispose(); h.model?.dispose()`. -/
def dispose (h : Held) : Held :=
  { h with models := h.model.elim h.models fun m => h.models.modify m fun model => { model with disposed := true } }

/-- What its load comes to: `finally` of an `open`, or nothing. -/
def settle (h : Held) : Loading := if h.opening then .settling else .done

/-- A change of a model that isn't disposed, as its listener hears it. -/
def edit (h : Held) (m : Nat) (text : String) : Held :=
  { h with models := h.models.set m ⟨text, false⟩, buffer := { h.buffer with draft := text } }

/-- `setValue`, heard unless the model is disposed. -/
def setValue (h : Held) (m : Nat) (disposed : Bool) (text : String) : Held :=
  if disposed then { h with models := h.models.set m ⟨text, true⟩ } else h.edit m text

/-- The model it has now. -/
def current (h : Held) : Option (Nat × ModelHandle) := h.model.bind fun m => h.models[m]?.map fun model => (m, model)

def setDraft (h : Held) (text : String) : Held :=
  match h.current.filter fun model => model.2.text != text with
  | some (m, model) => h.setValue m model.disposed text
  | none => { h with buffer := { h.buffer with draft := text } }

/-- The buffer under another path: its model is the old file's, and the moved one gets its own. -/
def moveTo (h : Held) (path : String) (services : Option Nat) : Held :=
  { h.dispose with
    buffer := { h.buffer with path }, model := none
    moves := h.moves ++ services.toList.map fun n => ⟨n, some h.buffer.draft⟩ }

/-- The rest of `diskChanged`, for a text read when `asOf` saves had ended. -/
def look (h : Held) (disk : String) (asOf : Nat) : Held :=
  if disk = h.buffer.saved then h
  else if disk = h.buffer.draft then { h with buffer := { h.buffer with saved := disk, conflict := none }, asOf }
  else if isDirty h.buffer then { h with buffer := { h.buffer with conflict := some disk } }
  else setDraft { h with buffer := { h.buffer with saved := disk }, asOf } disk

/-- The text a person typed that the buffer holds: a draft other than the saved text, or the one
a `restore` brings. -/
def unsavedText (h : Held) : Option String := if isDirty h.buffer then some h.buffer.draft else h.load.brings

end Held

/-- The texts of files that are not saved, as persons typed them. -/
abbrev Unsaved := List (Key × String)

structure Store where
  /-- Every buffer ever made. -/
  objects : List Held
  held : InsertionMap Key Nat
  pending : List Key
  /-- Each stream's language services, in the order they started. -/
  streams : String → Option Nat
  started : Nat
  /-- How often each services heard that a path was opened and closed. -/
  opened : Nat → String → Nat
  closed : Nat → String → Nat
  unsaved : Unsaved

namespace Store

def empty : Store := ⟨[], .empty, [], fun _ => none, 0, fun _ _ => 0, fun _ _ => 0, []⟩

def put (s : Store) (o : Nat) (h : Held) : Store := { s with objects := s.objects.set o h }

/-- The buffer at a key. -/
def found (s : Store) (key : Key) : Option (Nat × Held) :=
  (s.held.get key).bind fun o => s.objects[o]?.map fun h => (o, h)

def tellOpened (s : Store) (services : Nat) (path : String) : Store :=
  { s with opened := fun n p => if n = services ∧ p = path then s.opened n p + 1 else s.opened n p }

def tellClosed (s : Store) (services : Option Nat) (path : String) : Store :=
  { s with closed := fun n p => if some n = services ∧ p = path then s.closed n p + 1 else s.closed n p }

def streamHeld (s : Store) (stream : String) : Store :=
  if (s.streams stream).isSome then s
  else { s with streams := fun id => if id = stream then some s.started else s.streams id, started := s.started + 1 }

/-- The sync part of `load`: with a stash's texts, up to its model. -/
def load (s : Store) (key : Key) (given : Option (String × String)) : Store :=
  let t := s.streamHeld key.stream
  { t with
    objects := t.objects ++ [.start key ((t.streams key.stream).getD 0) given], held := t.held.set key t.objects.length
    pending := if given.isNone then key :: t.pending else t.pending }

def open_ (s : Store) (key : Key) : Store :=
  if (s.found key).any fun here => here.2.buffer.state != .loading then s.streamHeld key.stream
  else if s.pending.contains key then s
  else s.load key none

/-- A buffer of the stream is held. -/
def inUse (s : Store) (stream : String) : Bool :=
  s.held.entries.any fun e => s.objects[e.2]?.any fun h => h.buffer.stream == stream

/-- A buffer out of the map, its model disposed. -/
def remove (s : Store) (key : Key) (o : Nat) (h : Held) : Store := { s.put o h.dispose with held := s.held.delete key }

def close (s : Store) (key : Key) : Store :=
  match s.found key with
  | none => s
  | some (o, h) =>
    let gone := s.remove key o h
    let told := if h.buffer.state = .ready then gone.tellClosed (s.streams h.buffer.stream) h.buffer.path else gone
    if gone.inUse h.buffer.stream then told
    else { told with streams := fun id => if id = h.buffer.stream then none else s.streams id }

/-- A buffer at its new path, with the draft it carries there. -/
def moveTo (s : Store) (key : Key) (o : Nat) (h : Held) (path : String) : Store :=
  let services := s.streams h.buffer.stream
  { (s.tellClosed services h.buffer.path).put o (h.moveTo path services) with
    held := (s.held.delete key).set ⟨h.buffer.stream, path⟩ o
    unsaved := s.unsaved.map fun text => if text.1 = key then (⟨h.buffer.stream, path⟩, text.2) else text }

/-- What `renamed` does with one entry. -/
def move (stream from_ to_ : String) (s : Store) (entry : Key × Nat) : Store :=
  match s.objects[entry.2]? with
  | none => s
  | some h =>
    if h.buffer.stream = stream ∧ isUnder h.buffer.path from_ = true then
      s.moveTo entry.1 entry.2 h (movedPath h.buffer.path from_ to_)
    else s

def renamed (s : Store) (stream from_ to_ : String) : Store := s.held.entries.foldl (move stream from_ to_) s

/-- Closes a buffer under a deleted path, and so discards its draft. -/
def discard (stream path : String) (s : Store) (entry : Key × Nat) : Store :=
  match s.objects[entry.2]? with
  | none => s
  | some h =>
    if h.buffer.stream = stream ∧ isUnder h.buffer.path path = true then
      { s.close entry.1 with unsaved := s.unsaved.filter (·.1 ≠ entry.1) }
    else s

def deleted (s : Store) (stream path : String) : Store := s.held.entries.foldl (discard stream path) s

def restore (s : Store) (key : Key) (saved draft : String) : Store :=
  let t := (s.close key).load key (some (saved, draft))
  { t with unsaved := if draft = saved then s.unsaved else (key, draft) :: s.unsaved }

end Store

/-- The steps, each named for the call or for what the call waited for. -/
inductive Event where
  | open_ (key : Key)
  | readDone (o : Nat) (result : Except String (Option FileRead))
  | modelDone (o : Nat)
  | modelFailed (o : Nat)
  /-- `load` goes on after `attach`. -/
  | attachDone (o : Nat)
  /-- The `finally` of an `open`. -/
  | settled (o : Nat)
  /-- Typing, or an edit by a language server, into a model. -/
  | type (o m : Nat) (text : String)
  | save (key : Key)
  | saveDone (o j : Nat)
  | saveFailed (o j : Nat)
  | diskChanged (key : Key)
  /-- The daemon reads the disk. -/
  | looked (o j : Nat) (read : Option FileRead)
  | lookDone (o j : Nat)
  | lookFailed (o j : Nat)
  | renamed (stream from_ to_ : String)
  | moveDone (o j : Nat)
  | moveFailed (o j : Nat)
  /-- The `then` of a moved buffer's `attach`. -/
  | moved (o j : Nat)
  | deleted (stream path : String)
  | restore (key : Key) (saved draft : String)

namespace Store

def readDone (s : Store) (o : Nat) (h : Held) (result : Except String (Option FileRead)) : Store :=
  let finish := fun buffer => s.put o { h with buffer, load := h.settle }
  match result with
  | .error e => finish { h.buffer with state := .error, error := some e }
  | .ok read =>
    if s.held.get h.key = some o then
      match read with
      | none => finish { h.buffer with state := .missing }
      | some (.unshown reason) => finish { h.buffer with state := .unshown, error := some reason }
      | some (.text text) => s.put o { h with load := .attaching text text }
    else finish h.buffer

def attachDone (s : Store) (o : Nat) (h : Held) (saved draft : String) : Store :=
  if s.held.get h.key = some o then
    let ready := { h with buffer := { h.buffer with saved, draft, state := .ready }, load := h.settle }
    (s.put o ready).tellOpened h.services h.buffer.path
  else s.put o { h.dispose with load := h.settle }

def type (s : Store) (o : Nat) (h : Held) (m : Nat) (text : String) : Store :=
  let others := s.unsaved.filter (·.1 ≠ h.buffer.key)
  { s.put o (h.edit m text) with unsaved := if text = h.buffer.saved then others else (h.buffer.key, text) :: others }

def save (s : Store) (o : Nat) (h : Held) : Store :=
  s.put o { h with buffer := { h.buffer with saving := true }, saves := h.saves ++ [h.buffer.draft] }

/-- The file holds what was written; a draft other than it is unsaved. -/
def saveDone (s : Store) (o : Nat) (h : Held) (j : Nat) (content : String) : Store :=
  let written :=
    { h with
      buffer := { h.buffer with saving := false, saved := content, conflict := none }
      saves := h.saves.eraseIdx j, ended := h.ended + 1, asOf := h.ended + 1 }
  let others := s.unsaved.filter (·.1 ≠ h.buffer.key)
  { s.put o written with
    unsaved :=
      if s.held.get h.buffer.key = some o then if isDirty written.buffer then (h.buffer.key, h.buffer.draft) :: others else others
      else s.unsaved }

/-- A text that the file is seen to hold is no unsaved one. -/
def lookDone (s : Store) (o : Nat) (h : Held) (j : Nat) (key : Key) (read : Option FileRead) (asOf : Nat) : Store :=
  let rest := { h with looks := h.looks.eraseIdx j }
  match read with
  | some (.text disk) =>
    if s.held.get key = some o then
      { s.put o (rest.look disk asOf) with unsaved := s.unsaved.filter (· ≠ (key, disk)) }
    else s.put o rest
  | _ => s.put o rest

/-- A step of the store; `none` where the event can't come, or the call throws. -/
def step (s : Store) : Event → Option (Store × Unit)
  | .open_ key => some (s.open_ key, ())
  | .readDone o result => (s.objects[o]?.filter fun h => h.load = .reading).map fun h => (s.readDone o h result, ())
  | .modelDone o => s.objects[o]?.bind fun h =>
    match h.load with
    | .attaching saved draft => some (s.put o { h.attach draft with load := .attached saved draft }, ())
    | _ => none
  | .modelFailed o => s.objects[o]?.bind fun h =>
    match h.load with
    | .attaching _ _ => some (s.put o { h with load := h.settle }, ())
    | _ => none
  | .attachDone o => s.objects[o]?.bind fun h =>
    match h.load with
    | .attached saved draft => some (s.attachDone o h saved draft, ())
    | _ => none
  | .settled o => (s.objects[o]?.filter fun h => h.load = .settling).map fun h =>
    ({ s.put o { h with load := .done } with pending := s.pending.filter (· ≠ h.key) }, ())
  | .type o m text => s.objects[o]?.bind fun h => (h.models[m]?.filter fun model => !model.disposed).map fun _ => (s.type o h m text, ())
  | .save key => ((s.found key).filter fun here => here.2.buffer.state = .ready).map fun here => (s.save here.1 here.2, ())
  | .saveDone o j => s.objects[o]?.bind fun h => h.saves[j]?.map fun content => (s.saveDone o h j content, ())
  | .saveFailed o j => s.objects[o]?.bind fun h => h.saves[j]?.map fun _ =>
    (s.put o { h with buffer := { h.buffer with saving := false }, saves := h.saves.eraseIdx j }, ())
  | .diskChanged key => ((s.found key).filter fun here => here.2.buffer.state = .ready ∧ here.2.buffer.saving = false).map fun here =>
    (s.put here.1 { here.2 with looks := here.2.looks ++ [⟨key, none⟩] }, ())
  | .looked o j read => s.objects[o]?.bind fun h => (h.looks[j]?.filter fun look => look.seen.isNone).map fun look =>
    (s.put o { h with looks := h.looks.set j { look with seen := some (read, h.ended) } }, ())
  | .lookDone o j => s.objects[o]?.bind fun h => h.looks[j]?.bind fun look => look.seen.map fun seen =>
    (s.lookDone o h j look.key seen.1 seen.2, ())
  | .lookFailed o j => s.objects[o]?.bind fun h => h.looks[j]?.map fun _ => (s.put o { h with looks := h.looks.eraseIdx j }, ())
  | .renamed stream from_ to_ => some (s.renamed stream from_ to_, ())
  | .moveDone o j => s.objects[o]?.bind fun h => h.moves[j]?.bind fun move => move.awaited.map fun draft =>
    (s.put o { h.attach draft with moves := h.moves.set j { move with awaited := none } }, ())
  | .moveFailed o j => s.objects[o]?.bind fun h => (h.moves[j]?.filter fun move => move.awaited.isSome).map fun _ =>
    (s.put o { h with moves := h.moves.eraseIdx j }, ())
  | .moved o j => s.objects[o]?.bind fun h => (h.moves[j]?.filter fun move => move.awaited.isNone).map fun move =>
    ((s.put o { h with moves := h.moves.eraseIdx j }).tellOpened move.services h.buffer.path, ())
  | .deleted stream path => some (s.deleted stream path, ())
  | .restore key saved draft => some (s.restore key saved draft, ())

end Store

end Oxplow.Editor
