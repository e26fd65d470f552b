import Oxplow.Uri.Uri

/-! `session.ts`: the navigation model of a thread's center tabs. A position outside a tab's
entries, where the source would fail, has no current entry; no operation leads to one. -/

namespace Oxplow.Tabs
open Uri

structure TabRef where
  id : String
  pinned : Bool
  deriving DecidableEq

/-- The collection a page was opened from. -/
structure Origin where
  items : List TabRef
  index : Int
  deriving DecidableEq

/-- A page of a tab, with the memory of this step. -/
structure Entry (State : Type) where
  ref : TabRef
  historyState : Option State
  origin : Option Origin
  deriving DecidableEq

structure Tab (State : Type) where
  slot : String
  entries : List (Entry State)
  /-- The current entry's index. -/
  at_ : Nat
  pinned : Bool
  deriving DecidableEq

structure Session (State : Type) where
  tabs : List (Tab State)
  active : Option String
  /-- Slots, most recently used first. -/
  mru : List String
  /-- The next slot's number. -/
  next : Nat
  deriving DecidableEq

variable {State : Type}

def rendererViewKey : String := "oxplow.renderer"

/-- An id without its view; one that isn't oxplow's URI is its own. -/
def identityOf (id : String) : String := (Desktop.identityOf id).getD id

/-- The renderer that an id's view names. -/
def modeOf (id : String) : String := (Desktop.viewOf id rendererViewKey).getD ""

/-- The identity in its display mode. -/
def showingOf (id : String) : String :=
  if modeOf id = "" then identityOf id else identityOf id ++ "\n" ++ modeOf id

def slotName (n : Nat) : String := "t" ++ toString n

namespace Tab

def current (t : Tab State) : Option (Entry State) := t.entries[t.at_]?

/-- The page that a tab's entry shows. -/
def showsAt (t : Tab State) (i : Nat) : Option String := t.entries[i]?.map fun entry => showingOf entry.ref.id

def shown (t : Tab State) : Option String := t.showsAt t.at_

/-- The current entry changed in place. -/
def replace (t : Tab State) (f : Entry State → Entry State) : Tab State := { t with entries := t.entries.modify t.at_ f }

def back (t : Tab State) : Tab State := if t.at_ > 0 then { t with at_ := t.at_ - 1 } else t

def forward (t : Tab State) : Tab State := if t.at_ + 1 < t.entries.length then { t with at_ := t.at_ + 1 } else t

/-- An array's item, which no negative index has. -/
def item (items : List TabRef) (index : Int) : Option TabRef := if index < 0 then none else items[index.toNat]?

/-- The item that Up or Down goes to, and its origin: no other than the one shown. -/
def stepsTo (t : Tab State) (index : Int) (items : Option (List TabRef)) : Option (TabRef × Origin) :=
  (t.current.bind (·.origin)).bind fun origin =>
    (item (items.getD origin.items) index).bind fun ref => if index = origin.index then none else some (ref, { origin with index })

def stepOrigin (t : Tab State) (index : Int) (items : Option (List TabRef)) : Tab State :=
  match t.stepsTo index items with
  | some (ref, origin) => t.replace fun _ => ⟨ref, none, some origin⟩
  | none => t

/-- The current entry dropped, and the one before it shown. -/
def dropCurrent (t : Tab State) : Tab State := { t with entries := t.entries.eraseIdx t.at_, at_ := t.at_ - 1 }

end Tab

namespace Session

def emptySession : Session State := ⟨[], none, [], 1⟩

def touched (mru : List String) (slot : String) : List String := slot :: mru.filter (· != slot)

def withTab (s : Session State) (slot : String) (f : Tab State → Tab State) : Session State :=
  match s.tabs.findIdx? (·.slot == slot) with
  | some i => { s with tabs := s.tabs.modify i f }
  | none => s

def activate (s : Session State) : Option String → Session State
  | none => { s with active := none }
  | some slot => if s.tabs.any (·.slot == slot) then { s with active := some slot, mru := touched s.mru slot } else s

/-- Show `entry`, in the tab that shows its page or a new one. -/
def open_ (s : Session State) (entry : Entry State) (pinned : Bool) : Session State :=
  match s.tabs.find? (·.shown == some (showingOf entry.ref.id)) with
  | some there =>
    let refreshed := s.withTab there.slot fun t =>
      t.replace fun now => { now with ref := entry.ref, origin := entry.origin.or now.origin }
    refreshed.activate (some there.slot)
  | none =>
    let slot := slotName s.next
    ⟨s.tabs ++ [⟨slot, [entry], 0, pinned⟩], some slot, touched s.mru slot, s.next + 1⟩

/-- Closing the active tab leaves the most recent other one active, or none. -/
def close (s : Session State) (slot : String) : Session State :=
  if s.tabs.any (·.slot == slot) then
    let mru := s.mru.filter (· != slot)
    let tabs := s.tabs.filter (·.slot != slot)
    { s with tabs, mru, active := if s.active = some slot then mru.find? fun m => tabs.any (·.slot == m) else s.active }
  else s

/-- Go to `entry` in `slot`; another tab that shows the page closes. -/
def navigate (s : Session State) (slot : String) (entry : Entry State) (replace : Bool) : Session State :=
  match s.tabs.find? (·.slot == slot) with
  | none => s
  | some tab =>
    match tab.current with
    | none => s
    | some now =>
      if now.ref.id = entry.ref.id then s
      else
        let shown := showingOf entry.ref.id
        let samePage := decide (showingOf now.ref.id = shown)
        let step := if samePage then { entry with origin := entry.origin.or now.origin, historyState := entry.historyState.or now.historyState } else entry
        if samePage && replace then s.withTab slot fun t => t.replace fun _ => step
        else
          let kept := if replace then tab.entries.take tab.at_ else tab.entries.take (tab.at_ + 1)
          let others := (s.tabs.filter fun t => t.slot != slot && t.shown == some shown).map Tab.slot
          others.foldl close (s.withTab slot fun _ => { tab with entries := kept ++ [step], at_ := kept.length })

def setHistoryState (s : Session State) (slot : String) (state : Option State) : Session State :=
  s.withTab slot fun t => t.replace fun now => { now with historyState := state }

/-- Each tab's current page, in strip order. -/
def refsOf (s : Session State) : List (Option TabRef) := s.tabs.map fun t => t.current.map (·.ref)

/-- The tabs of a strip, new ones numbered from `next` on. -/
def stripTabs (s : Session State) (next : Nat) : List TabRef → List (Tab State) × Nat
  | [] => ([], next)
  | ref :: refs =>
    match s.tabs.find? fun t => t.current.map (·.ref.id) == some ref.id with
    | some there => ((there :: (s.stripTabs next refs).1), (s.stripTabs next refs).2)
    | none =>
      let rest := s.stripTabs (next + 1) refs
      (⟨slotName next, [⟨ref, none, none⟩], 0, ref.pinned⟩ :: rest.1, rest.2)

/-- The strip shows `refs`, in that order. -/
def setStrip (s : Session State) (refs : List TabRef) : Session State :=
  if s.refsOf.map (Option.map TabRef.id) = refs.map (some ·.id) then s
  else
    let strip := s.stripTabs s.next refs
    let kept := fun slot => strip.1.any (·.slot == slot)
    let mru := s.mru.filter kept
    ⟨strip.1, if s.active.any kept then s.active else mru.head?, mru, strip.2⟩

/-- The page that `slot` shows is gone. -/
def dropCurrent (s : Session State) (slot : String) : Session State :=
  match s.tabs.find? (·.slot == slot) with
  | none => s
  | some tab => if tab.at_ = 0 then s.close slot else s.withTab slot Tab.dropCurrent

/-- The tabs in `order`; any it doesn't name follow. -/
def reorder (s : Session State) (order : List String) : Session State :=
  { s with
    tabs := (order.flatMap fun slot => s.tabs.filter (·.slot == slot)) ++ s.tabs.filter fun t => !order.contains t.slot }

end Session

/-- A call of one of the session's functions. -/
inductive Op (State : Type) where
  | open_ (entry : Entry State) (pinned : Bool)
  | navigate (slot : String) (entry : Entry State) (replace : Bool)
  | back (slot : String)
  | forward (slot : String)
  | stepOrigin (slot : String) (index : Int) (items : Option (List TabRef))
  | close (slot : String)
  | setStrip (refs : List TabRef)
  | dropCurrent (slot : String)
  | reorder (order : List String)
  | activate (slot : Option String)
  | setHistoryState (slot : String) (state : Option State)

def Session.apply (s : Session State) : Op State → Session State
  | .open_ entry pinned => s.open_ entry pinned
  | .navigate slot entry replace => s.navigate slot entry replace
  | .back slot => s.withTab slot Tab.back
  | .forward slot => s.withTab slot Tab.forward
  | .stepOrigin slot index items => s.withTab slot (·.stepOrigin index items)
  | .close slot => s.close slot
  | .setStrip refs => s.setStrip refs
  | .dropCurrent slot => s.dropCurrent slot
  | .reorder order => s.reorder order
  | .activate slot => s.activate slot
  | .setHistoryState slot state => s.setHistoryState slot state

end Oxplow.Tabs
