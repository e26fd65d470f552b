import Mathlib.Data.List.Basic
import Oxplow.Jobs.CanonicalJson

/-! `result_budget.rs`: how much of a loader's result a page run keeps, by the bytes it takes as
JSON. -/

namespace Oxplow.Pages

inductive SqlCell where
  | null
  | bool (value : Bool)
  | int (value : Int)
  /-- A float, by its bits. -/
  | real (bits : UInt64)
  | text (value : String)
deriving DecidableEq

end Oxplow.Pages

namespace Oxplow.Runner
open Jobs
open Pages (SqlCell)

/-- What a query gave. `metadata` is what it read, when that last changed and how it was collected,
as it is written. -/
structure SqlQueryResult where
  columns : List String
  rows : List (List SqlCell)
  truncated : Bool
  metadata : String
  deriving DecidableEq

/-- Of a result that no query gave. -/
def noMetadata : String :=
  "\"reads\":\x7b\"datasets\":[],\"tables\":[],\"measures\":[],\"measureScoped\":[]\x7d," ++
    "\"freshness\":[],\"generation\":null,\"coverage\":[]"

def table (columns : List String) (rows : List (List SqlCell)) : SqlQueryResult := ⟨columns, rows, false, noMetadata⟩

/-! ## As JSON -/

/-- With commas between. -/
def joined : List String → String
  | [] => ""
  | [text] => text
  | text :: next :: texts => text ++ "," ++ joined (next :: texts)

def boolText (b : Bool) : String := if b then "true" else "false"

section
variable (realText : UInt64 → String)

def cellText : SqlCell → String
  | .null => "null"
  | .bool value => boolText value
  | .int value => toString value
  | .real bits => realText bits
  | .text value => Json.quote value

def rowText (row : List SqlCell) : String := "[" ++ joined (row.map (cellText realText)) ++ "]"

def SqlQueryResult.text (result : SqlQueryResult) : String :=
  "\x7b\"columns\":[" ++ joined (result.columns.map Json.quote) ++ "],\"rows\":[" ++ joined (result.rows.map (rowText realText)) ++
    "],\"truncated\":" ++ boolText result.truncated ++ "," ++ result.metadata ++ "\x7d"

def SqlQueryResult.bytes (result : SqlQueryResult) : Nat := (result.text realText).utf8ByteSize

/-- The size of a text, up to a limit. -/
def serializedBytes (text : String) (limit : Nat) : Option Nat :=
  if text.utf8ByteSize ≤ limit then some text.utf8ByteSize else none

/-! ## The budget -/

structure ResultBudget where
  remaining : Nat
  /-- A subtraction went below zero. -/
  underflow : Bool

namespace ResultBudget

/-- `remaining -= bytes`. -/
def spend (budget : ResultBudget) (bytes : Nat) : ResultBudget :=
  ⟨budget.remaining - bytes, budget.underflow || decide (budget.remaining < bytes)⟩

/-- A checkpoint of it. -/
def restore (budget : ResultBudget) (remaining : Nat) : ResultBudget := { budget with remaining }

/-- The rows that fit, and whether others did not. -/
def admitRows : List (List SqlCell) → List (List SqlCell) → ResultBudget → List (List SqlCell) × Bool × ResultBudget
  | [], kept, budget => (kept, false, budget)
  | row :: rows, kept, budget =>
    let comma := if kept.isEmpty then 0 else 1
    if budget.remaining < comma then (kept, true, budget)
    else
      match serializedBytes (rowText realText row) (budget.remaining - comma) with
      | none => (kept, true, budget)
      | some bytes => admitRows rows (kept ++ [row]) (budget.spend (bytes + comma))

/-- What is kept of a result, and whether it was cropped. -/
def admitResult (budget : ResultBudget) (result : SqlQueryResult) : Except String (SqlQueryResult × Bool) × ResultBudget :=
  let base := { result with rows := [] }
  match serializedBytes (base.text realText) budget.remaining with
  | some bytes =>
    let (rows, cropped, budget) := admitRows realText result.rows [] (budget.spend bytes)
    (.ok ({ base with rows, truncated := result.truncated || cropped }, cropped), budget)
  | none =>
    let bare := { base with columns := [], truncated := true }
    match serializedBytes (bare.text realText) budget.remaining with
    | some bytes => (.ok (bare, true), budget.spend bytes)
    | none => (.error "page result metadata exceeds the combined result budget", budget)

end ResultBudget

end

/-- What the budget of a run is. -/
def maxResultBytes : Nat := 5 * 1024 * 1024

end Oxplow.Runner

/-! `parse.rs`: a JSON or YAML document as a tree of rows, one for each value it holds. -/

namespace Oxplow.Pages
open Jobs

/-- A row of the columns `id`, `parent`, `name`, `kind`, `value` and `count`. -/
structure TreeRow where
  id : String
  parent : Option String
  name : Option String
  kind : String
  value : Option String
  count : Option Nat
  deriving DecidableEq

def treeColumns : List String := ["id", "parent", "name", "kind", "value", "count"]

def textCell (text : Option String) : SqlCell := text.elim .null .text

def TreeRow.cells (row : TreeRow) : List SqlCell :=
  [.text row.id, textCell row.parent, textCell row.name, .text row.kind, textCell row.value,
    row.count.elim .null fun n => .int n]

/-- `str::replace` of a character. -/
def replaceChar (c : Char) (other text : List Char) : List Char := text.flatMap fun x => if x = c then other else [x]

/-- A key as a JSON pointer token. -/
def pointerToken (key : String) : String :=
  String.ofList (replaceChar '/' ['~', '1'] (replaceChar '~' ['~', '0'] key.toList))

def row (id : String) (parent name : Option String) : Json → TreeRow
  | .object entries => ⟨id, parent, name, "object", none, some entries.length⟩
  | .array items => ⟨id, parent, name, "array", none, some items.length⟩
  | .string text => ⟨id, parent, name, "string", some text, none⟩
  | .number text => ⟨id, parent, name, "number", some text, none⟩
  | .bool value => ⟨id, parent, name, "boolean", some (if value then "true" else "false"), none⟩
  | .null => ⟨id, parent, name, "null", none, none⟩

/-- The id of what is held at `at_` under a name. -/
def childId (at_ name : String) : String := at_ ++ "/" ++ pointerToken name

def parentAt (at_ : String) : Option String := if at_.isEmpty then none else some at_

mutual
/-- The rows of the holder's children, each followed by its own, in order. -/
def children (at_ : String) : Json → List TreeRow
  | .object entries => entryRows at_ entries
  | .array items => itemRows at_ 0 items
  | _ => []

def entryRows (at_ : String) : List (String × Json) → List TreeRow
  | [] => []
  | (name, value) :: entries =>
    row (childId at_ name) (parentAt at_) (some name) value :: children (childId at_ name) value ++ entryRows at_ entries

def itemRows (at_ : String) (i : Nat) : List Json → List TreeRow
  | [] => []
  | value :: items =>
    row (childId at_ (toString i)) (parentAt at_) (some (toString i)) value :: children (childId at_ (toString i)) value ++
      itemRows at_ (i + 1) items
end

def treeRows (doc : Json) : List TreeRow :=
  match doc with
  | .object _ | .array _ => children "" doc
  | scalar => [row "/" none none scalar]

/-- The rows of a document, a cell a column. -/
def tree (doc : Json) : List (List SqlCell) := (treeRows doc).map TreeRow.cells

end Oxplow.Pages
