import Mathlib.Data.List.Sort
import Mathlib.Data.List.Dedup
import Mathlib.Data.String.Basic
import Oxplow.Library.Table

/-! The structural three-way merge of `ast_merge.rs`, from the parsed top-level
items on. Parsing a text into items and printing items as a text are parameters. -/

namespace Oxplow.Ast
open Library

/-- A top-level declaration, reduced to what the structural merge needs. -/
structure Item where
  key : String
  text : String
  byteSpan : Nat × Nat
  deriving DecidableEq

/-- A `BTreeMap<&str, &Item>`. -/
abbrev ItemMap := Table String Item

inductive BailReason where
  | sideParseFailed | duplicateKeys | reparseFailed
  deriving DecidableEq

inductive AstMerge where
  | resolved (text : String)
  | conflict (keys : List String)
  | bail (reason : BailReason)
  deriving DecidableEq

/-- A true overlap: the file is refused. -/
structure Overlap where
  deriving DecidableEq

/-- Index items by identity key; `none` if a key repeats within one side. -/
def indexByKey (items : List Item) : Option ItemMap :=
  items.foldlM (fun map it => if map.containsKey it.key then none else some (map.insert it.key it)) ([] : ItemMap)

/-- Per-key three-way classify: keep that item, drop it, or refuse. -/
def classify : Option Item → Option Item → Option Item → Except Overlap (Option Item)
  | some b, some o, some t =>
    if o.text = t.text then .ok (some o)
    else if o.text = b.text then .ok (some t)
    else if t.text = b.text then .ok (some o)
    else .error {}
  | some b, none, some t => if t.text = b.text then .ok none else .error {}
  | some b, some o, none => if o.text = b.text then .ok none else .error {}
  | some _, none, none => .ok none
  | none, some o, none => .ok (some o)
  | none, none, some t => .ok (some t)
  | none, some o, some t => if o.text = t.text then .ok (some o) else .error {}
  -- `unreachable!`: every key classified came from some side.
  | none, none, none => .ok none

/-- Every key of the three sides, sorted, each once. -/
def allKeys (bmap omap tmap : ItemMap) : List String :=
  ((bmap.keys ++ omap.keys ++ tmap.keys).insertionSort (· ≤ ·)).dedup

/-- One key of the resolve loop. -/
def resolveKey (bmap omap tmap : ItemMap) (sofar : ItemMap × List String) (key : String) : ItemMap × List String :=
  match classify (bmap.get key) (omap.get key) (tmap.get key) with
  | .ok (some item) => (sofar.1.insert key item, sofar.2)
  | .ok none => sofar
  | .error _ => (sofar.1, sofar.2 ++ [key])

/-- The winning item per surviving key, and the keys in conflict. -/
def resolveKeys (bmap omap tmap : ItemMap) : ItemMap × List String :=
  (allKeys bmap omap tmap).foldl (resolveKey bmap omap tmap) ([], [])

/-! ## The order of the merged items -/

/-- The additions put at the front, and those put after each base key. -/
structure Buckets where
  front : List Item
  after : String → List Item

def Buckets.empty : Buckets := ⟨[], fun _ => []⟩

def Buckets.push (buckets : Buckets) : Option String → Item → Buckets
  | none, item => { buckets with front := buckets.front ++ [item] }
  | some anchor, item =>
    { buckets with after := fun key => if key = anchor then buckets.after key ++ [item] else buckets.after key }

section
variable (bmap omap resolved : ItemMap)

/-- One step along a side: a surviving base item becomes the anchor, and an
addition that resolves goes into the bucket of the anchor before it. -/
def placeItem (skipBothAdd : Bool) : Option String × Buckets → Item → Option String × Buckets
  | (anchor, buckets), it =>
    if bmap.containsKey it.key then
      (if resolved.containsKey it.key then some it.key else anchor, buckets)
    else if skipBothAdd && omap.containsKey it.key then (anchor, buckets)
    else match resolved.get it.key with
      | some item => (anchor, buckets.push anchor item)
      | none => (anchor, buckets)

def place (buckets : Buckets) (side : List Item) (skipBothAdd : Bool) : Buckets :=
  (side.foldl (placeItem bmap omap resolved skipBothAdd) (none, buckets)).2

/-- The front bucket, then the surviving base items in base order, each with the
additions placed after it. -/
def orderItems (base ours theirs : List Item) : List Item :=
  let buckets := place bmap omap resolved (place bmap omap resolved .empty ours false) theirs true
  buckets.front ++ base.flatMap fun it =>
    match resolved.get it.key with
    | some winner => winner :: buckets.after it.key
    | none => []

end

/-- The merge on parsed items, with the reparse guard. -/
def mergeWithReconstruct (parse : String → Option (List Item)) (reconstruct : List Item → String)
    (base ours theirs : String) : AstMerge :=
  match parse base, parse ours, parse theirs with
  | some bItems, some oItems, some tItems =>
    match indexByKey bItems, indexByKey oItems, indexByKey tItems with
    | some bmap, some omap, some tmap =>
      let (resolved, conflicts) := resolveKeys bmap omap tmap
      if conflicts ≠ [] then .conflict conflicts
      else
        let text := reconstruct (orderItems bmap omap resolved bItems oItems tItems)
        if (parse text).isNone then .bail .reparseFailed else .resolved text
    | _, _, _ => .bail .duplicateKeys
  | _, _, _ => .bail .sideParseFailed

end Oxplow.Ast
