import Oxplow.Library.Table
import Oxplow.Pages.Results

/-! `runner.rs`: a run of a page. Its loaders run in order within the budget, then its tree is
resolved, and with it the pages it embeds, those mounted in its slots and those that stand in for a
node. -/

namespace Oxplow.Runner
open Library Jobs
open Pages (SqlCell)

/-! ## Pages -/

/-- A value by name, in the order of the names. -/
abbrev Params := List (String × SqlCell)

def paramOf (params : Params) (name : String) : Option SqlCell := params.lookup name

inductive ArgSource where
  | param (name : String)
  /-- An earlier loader's column, from its first row. -/
  | column (loader column : String)
  | literal (value : Json)

abbrev Args := List (String × ArgSource)

inductive Loader where
  | sql (sql : String) (params : Args)
  | command (command : String) (args : Args) (items : Option String)
  | page (page loader : String) (params : Args)
  | rows (columns : List String) (rows : List (List SqlCell))
  | parse (format : String) (text : ArgSource)
  | content (text : Bool) (maxBytes : Nat)

namespace Loader

def isContent : Loader → Bool
  | content _ _ => true
  | _ => false

def isPage : Loader → Bool
  | page _ _ _ => true
  | _ => false

end Loader

structure LoaderDecl where
  name : String
  loader : Loader
  readsLoaders : List String
  readsParams : List String

structure Head where
  id : String
  replaceable : Option String

inductive Node where
  /-- A stack or a grid. -/
  | layout (head : Head) (grid : Bool) (children : List Node)
  | switch (head : Head) (param : String) (children : List Node)
  | viz (head : Head) (rows : Option String)
  | embed (head : Head) (page : String) (params : Args)
  | slot (head : Head) (name : String)
  /-- Markdown, or a component. -/
  | fixed (head : Head)

namespace Node

def head : Node → Head
  | layout head _ _ => head
  | switch head _ _ => head
  | viz head _ => head
  | embed head _ _ => head
  | slot head _ => head
  | fixed head => head

def slotName : Node → Option String
  | slot _ name => some name
  | _ => none

mutual
/-- The node and those under it. -/
def walk : Node → List Node
  | layout head grid children => layout head grid children :: walkAll children
  | switch head param children => switch head param children :: walkAll children
  | viz head rows => [viz head rows]
  | embed head page params => [embed head page params]
  | slot head name => [slot head name]
  | fixed head => [fixed head]

def walkAll : List Node → List Node
  | [] => []
  | node :: nodes => node.walk ++ walkAll nodes
end

end Node

structure Badge where
  loader : String
  column : Option String

structure PageAlert where
  minRows : Option Int
  column : Option String
  /-- Floats, by their bits. -/
  above : Option UInt64
  below : Option UInt64
  label : Option String

structure AlertState where
  firing : Bool
  count : Nat
  value : Option UInt64
  message : String
  deriving DecidableEq

inductive SeeAlsoDecl where
  | page (page : String) (params : Args)
  | rows (loader : String)

/-- A loaded page. `rest` is what else its file says. -/
structure Page where
  id : String
  params : List String
  needs : List String
  loaders : List LoaderDecl
  badge : Option Badge
  alert : Option PageAlert
  seeAlso : List SeeAlsoDecl
  view : Node
  rail : Option Node
  /-- Its own loaders that an option, choice or sub-field list of it names. -/
  lists : List String
  rest : String
  /-- A mapping of the file, with the system's own name refused. -/
  loaderNames : (loaders.map LoaderDecl.name).Nodup
  /-- As `check_page` has it. -/
  nodeIds : ((view.walk ++ rail.elim [] Node.walk).map fun node => node.head.id).Nodup

namespace Page

def roots (page : Page) : List Node := page.view :: page.rail.toList

def loader (page : Page) (name : String) : Option LoaderDecl := page.loaders.find? (·.name == name)

/-- The loader whose first row is the page's row. -/
def firstLoader (page : Page) : Option LoaderDecl := (page.loaders.find? (!·.loader.isContent)).or page.loaders.head?

end Page

/-! ## Runs -/

structure LoaderRun where
  result : SqlQueryResult
  error : Option String
  /-- Two loaders with one key have the same rows. -/
  key : String
  deriving DecidableEq

abbrev Loaders := Table String LoaderRun

structure SeeAlso where
  title : String
  uri : String
  description : Option String
  deriving DecidableEq

structure PageInactive where
  needs : List String
  message : String
  deriving DecidableEq

mutual
inductive RunNode where
  | mk (id : String) (children : List RunNode) (embed : Option PageRun) (error replacedBy : Option String)

structure PageRun where
  page : Page
  params : Params
  loaders : Loaders
  tree : RunNode
  rail : Option RunNode
  alert : Option AlertState
  badge : Option SqlCell
  inactive : Option PageInactive
  seeAlso : List SeeAlso
end

namespace RunNode

def id : RunNode → String
  | mk id _ _ _ _ => id

def leaf (id : String) : RunNode := mk id [] none none none

def failed (id error : String) : RunNode := mk id [] none (some error) none

def named (id : String) : RunNode → RunNode
  | mk _ children embed error replacedBy => mk id children embed error replacedBy

def standingFor (id extension : String) : RunNode → RunNode
  | mk _ children embed error _ => mk id children embed error (some extension)

end RunNode

/-! Every run in a run, with itself. -/

mutual
def RunNode.runs : RunNode → List PageRun
  | .mk _ children embed _ _ => embedRuns embed ++ RunNode.runsAll children

def RunNode.runsAll : List RunNode → List PageRun
  | [] => []
  | node :: nodes => node.runs ++ RunNode.runsAll nodes

def embedRuns : Option PageRun → List PageRun
  | none => []
  | some run => run.runs

def railRuns : Option RunNode → List PageRun
  | none => []
  | some node => node.runs

def PageRun.runs : PageRun → List PageRun
  | ⟨page, params, loaders, tree, rail, alert, badge, inactive, seeAlso⟩ =>
    ⟨page, params, loaders, tree, rail, alert, badge, inactive, seeAlso⟩ :: (tree.runs ++ railRuns rail)
end

/-! ## What a runner runs over -/

structure TempTable where
  name : String
  columns : List String
  rows : List (List SqlCell)

inductive SlotAt where
  | start
  | atEnd
  | after (id : String)
  | before (id : String)

structure PageSlot where
  page : String
  position : Option SlotAt

structure UiReplacement where
  extension : String
  page : String

structure Services where
  /-- How JSON writes a float. -/
  realText : UInt64 → String
  /-- The cell of a JSON number. -/
  numberCell : String → SqlCell
  /-- A JSON value as text. -/
  jsonText : Json → String
  find : String → Except String Page
  mounts : String → String → List PageSlot
  replacement : String → Params → Option UiReplacement
  resolveParams : Page → Params → Except String Params
  unmet : List String → List String
  needsMessage : List String → String
  /-- What a resource's URI is, without the view it is shown with. -/
  identity : String → String
  keyOf : Loader → Params → Params → List String → String
  query : Page → String → List TempTable → List (String × Json) → Params → Except String SqlQueryResult
  command : Page → LoaderDecl → List (String × Json) → Except String SqlQueryResult
  parseText : String → String → Except String SqlQueryResult
  content : Page → Params → Except String SqlQueryResult
  evaluateAlert : PageAlert → SqlQueryResult → AlertState
  /-- What a page's file says, with what its actions do. -/
  describe : Page → String
  /-- A see-also link to a page. -/
  link : Page → List (String × Json) → SeeAlso

abbrev Memo := Table String LoaderRun

/-- Shared by the pages of a run. -/
structure RunData where
  memo : Memo
  budget : ResultBudget

/-! ## Arguments -/

def columnAt (columns : List String) (column : String) : Option Nat := columns.findIdx? (· == column)

def firstRowCell (result : SqlQueryResult) (column : String) : Option SqlCell :=
  (columnAt result.columns column).bind fun i => result.rows.head?.bind fun row => row[i]?

section
variable (s : Services)

def cellJson : SqlCell → Json
  | .null => .null
  | .bool value => .bool value
  | .int value => .number (toString value)
  | .real bits => if s.realText bits = "null" then .null else .number (s.realText bits)
  | .text value => .string value

def jsonCell : Json → SqlCell
  | .null => .null
  | .bool value => .bool value
  | .number text => s.numberCell text
  | .string text => .text text
  | other => .text (s.jsonText other)

def bindArg (params : Params) (earlier : Loaders) : ArgSource → Json
  | .literal value => value
  | .param name => ((paramOf params name).map (cellJson s)).getD .null
  | .column loader column => (((earlier.get loader).bind fun run => firstRowCell run.result column).map (cellJson s)).getD .null

def bindArgs (args : Args) (params : Params) (earlier : Loaders) : List (String × Json) :=
  args.map fun arg => (arg.1, bindArg s params earlier arg.2)

/-- An embedded page's params: what the embed names, else the host's of the same name, else a column of
that name in the first row of the host's loaders. -/
def flowParams (child : Page) (given : Args) (params : Params) (loaders : Loaders) (order : List LoaderDecl) : Params :=
  let explicit := bindArgs s given params loaders
  child.params.filterMap fun name =>
    match explicit.lookup name with
    | some value => some (name, jsonCell s value)
    | none =>
      match (paramOf params name).filter (· ≠ .null) with
      | some value => some (name, value)
      | none =>
        ((order.filterMap fun decl => loaders.get decl.name).findSome? fun run => firstRowCell run.result name).map (name, ·)

/-! ## Which loaders are hidden -/

/-- The place of the child in view of a switch: the one its param names, else the first. -/
def inViewAt (param : String) (children : List Node) (params : Params) : Nat :=
  match paramOf params param with
  | some (.text value) => (children.findIdx? (·.head.id == value)).getD 0
  | _ => 0

mutual
/-- The loaders a node and those under it show. -/
def shown : Node → List String
  | .layout _ _ children => shownAll children
  | .switch _ _ children => shownAll children
  | .viz _ rows => rows.toList
  | .embed _ _ _ => []
  | .slot _ _ => []
  | .fixed _ => []

def shownAll : List Node → List String
  | [] => []
  | node :: nodes => shown node ++ shownAll nodes
end

mutual
/-- Those shown now, each switch with its child in view. -/
def visible (params : Params) : Node → List String
  | .layout _ _ children => visibleAll params children
  | .switch _ param children => visibleAt params (inViewAt param children params) children
  | .viz _ rows => rows.toList
  | .embed _ _ _ => []
  | .slot _ _ => []
  | .fixed _ => []

def visibleAll (params : Params) : List Node → List String
  | [] => []
  | node :: nodes => visible params node ++ visibleAll params nodes

def visibleAt (params : Params) : Nat → List Node → List String
  | _, [] => []
  | 0, node :: _ => visible params node
  | n + 1, _ :: nodes => visibleAt params n nodes
end

def ArgSource.loader? : ArgSource → Option String
  | .column loader _ => some loader
  | _ => none

def Node.embedArgs : Node → List ArgSource
  | .embed _ _ params => params.map (·.2)
  | _ => []

/-- The loaders whose columns an embed takes. -/
def embedColumns (node : Node) : List String := node.walk.flatMap fun node => node.embedArgs.filterMap ArgSource.loader?

def SeeAlsoDecl.rows? : SeeAlsoDecl → Option String
  | .rows loader => some loader
  | .page _ _ => none

/-- The loaders that only a list of the page names. -/
def onDemandLoaders (page : Page) (all : List String) : List String :=
  let pinned := (if page.alert.isSome then page.firstLoader.toList.map (·.name) else []) ++ page.badge.toList.map (·.loader) ++
    page.seeAlso.filterMap SeeAlsoDecl.rows? ++ page.roots.flatMap embedColumns ++ page.loaders.flatMap (·.readsLoaders)
  page.lists.filter fun name => !all.contains name && !pinned.contains name

/-- What the needed loaders read is needed too, the last loader first. -/
def neededBy (needed : List String) (loaders : List LoaderDecl) : List String :=
  loaders.foldr (fun decl needed => if needed.contains decl.name then needed ++ decl.readsLoaders else needed) needed

/-- The loaders that a run of the page needn't run. -/
def hiddenLoaders (page : Page) (params : Params) : List String :=
  let all := page.roots.flatMap shown
  let seen := page.roots.flatMap (visible params)
  let onDemand := onDemandLoaders page all
  let needed := ((page.loaders.filter fun decl =>
    (!all.contains decl.name || seen.contains decl.name) && !onDemand.contains decl.name).map (·.name)) ++
      page.badge.toList.map (·.loader)
  (page.loaders.map (·.name)).filter fun name => !(neededBy needed page.loaders).contains name

/-! ## Loaders -/

/-- How a page runs, as far down as is left. -/
abbrev Running := Page → Params → RunData → Except String PageRun × RunData

inductive Unreadable where
  | failed (why : String)
  | noColumns

/-- The loaders a query reads, as its temp tables. -/
def tempTables (earlier : Loaders) : List String → Except Unreadable (List TempTable)
  | [] => .ok []
  | name :: names =>
    match earlier.get name with
    | none => tempTables earlier names
    | some run =>
      match run.error with
      | some error => .error (.failed ("reads `" ++ name ++ "`, which failed: " ++ error))
      | none =>
        if run.result.columns.isEmpty then .error .noColumns
        else (tempTables earlier names).map (⟨name, run.result.columns, run.result.rows⟩ :: ·)

/-- The params a loader binds. A resource's content is keyed by the resource. -/
def boundParams (decl : LoaderDecl) (params : Params) : Params :=
  let bound := params.filter fun param => decl.readsParams.contains param.1 || decl.loader.isPage
  match decl.loader.isContent, paramOf params "uri" with
  | true, some (.text uri) => bound.filter (·.1 ≠ "uri") ++ [("uri", .text (s.identity uri))]
  | _, _ => bound

def loaderKey (decl : LoaderDecl) (params : Params) (earlier : Loaders) : String :=
  s.keyOf decl.loader (boundParams s decl params) params (decl.readsLoaders.filterMap fun name => (earlier.get name).map (·.key))

def argText : Json → String
  | .null => ""
  | .string text => text
  | other => s.jsonText other

/-- The loader that a page loader takes of the page it ran. -/
def selected (target loader : String) : Except String PageRun → Except String SqlQueryResult
  | .error e => .error e
  | .ok run =>
    match run.loaders.get loader with
    | none => .error ("page `" ++ target ++ "`'s loader `" ++ loader ++ "` didn't run")
    | some run => run.error.elim (.ok run.result) .error

/-- What a loader gives. A page it takes the rows of runs on a budget of its own. -/
def loaderOutcome (run : Running) (page : Page) (decl : LoaderDecl) (params : Params) (earlier : Loaders) (data : RunData) :
    Except String SqlQueryResult × RunData :=
  match decl.loader with
  | .sql sql given =>
    match tempTables earlier decl.readsLoaders with
    | .error (.failed why) => (.error why, data)
    | .error .noColumns => (.ok (table [] []), data)
    | .ok temp => (s.query page sql temp (bindArgs s given params earlier) params, data)
  | .command _ args _ => (s.command page decl (bindArgs s args params earlier), data)
  | .page target loader given =>
    match s.find target with
    | .error e => (.error e, data)
    | .ok other =>
      if (other.loader loader).isNone then (.error ("page `" ++ target ++ "` has no loader `" ++ loader ++ "`"), data)
      else
        let (out, after) := run other ((bindArgs s given params earlier).map fun arg => (arg.1, jsonCell s arg.2))
          { data with budget := data.budget.restore maxResultBytes }
        (selected target loader out, { after with budget := after.budget.restore data.budget.remaining })
  | .rows columns rows => (.ok (table columns rows), data)
  | .parse format text => (s.parseText format (argText s (bindArg s params earlier text)), data)
  | .content _ _ => (s.content page params, data)

/-- A result as a memo entry holds it. -/
def bounded (budget : ResultBudget) : Except String SqlQueryResult → Except String SqlQueryResult × ResultBudget
  | .error e => (.error e, budget)
  | .ok result =>
    let (admitted, own) := (budget.restore maxResultBytes).admitResult s.realText result
    (admitted.map (·.1), own.restore budget.remaining)

def loaderRun (decl : LoaderDecl) (key : String) : Except String SqlQueryResult → LoaderRun
  | .ok result => ⟨result, none, key⟩
  | .error e => ⟨table [] [], some ("loader `" ++ decl.name ++ "`: " ++ e), key⟩

def runLoader (run : Running) (page : Page) (decl : LoaderDecl) (params : Params) (earlier : Loaders) (data : RunData) :
    LoaderRun × RunData :=
  let key := loaderKey s decl params earlier
  match data.memo.get key with
  | some hit => (hit, data)
  | none =>
    let (outcome, data) := loaderOutcome s run page decl params earlier data
    let (outcome, budget) := bounded s data.budget outcome
    let run := loaderRun decl key outcome
    (run, ⟨data.memo.insert key run, budget⟩)

/-- What is kept of a loader's run. A part of its rows has a key of its own. -/
def admitted (run : LoaderRun) (kept : SqlQueryResult × Bool) : LoaderRun :=
  { run with
    result := kept.1
    key :=
      if kept.2 then run.key ++ ":budget:" ++ toString kept.1.columns.length ++ ":" ++ toString kept.1.rows.length
      else run.key }

/-- The loaders of a page but the skipped ones, each with those before it. -/
def runLoaders (run : Running) (page : Page) (params : Params) (skipped : List String) :
    List LoaderDecl → Loaders → RunData → Except String Loaders × RunData
  | [], loaders, data => (.ok loaders, data)
  | decl :: decls, loaders, data =>
    if skipped.contains decl.name then runLoaders run page params skipped decls loaders data
    else
      let (ran, data) := runLoader s run page decl params loaders data
      match data.budget.admitResult s.realText ran.result with
      | (.error e, budget) => (.error e, { data with budget })
      | (.ok kept, budget) =>
        runLoaders run page params skipped decls (loaders ++ [(decl.name, admitted ran kept)]) { data with budget }

/-! ## The tree -/

/-- A page in a node, with its params from its host. One that fails keeps nothing of the budget. -/
def runEmbedded (run : Running) (host : Page) (node target : String) (given : Args) (params : Params) (loaders : Loaders)
    (data : RunData) : RunNode × RunData :=
  match s.find target with
  | .error e => (.failed node e, data)
  | .ok child =>
    match run child (flowParams s child given params loaders host.loaders) data with
    | (.ok run, data) => (.mk node [] (some run) none none, data)
    | (.error e, after) => (.failed node e, { after with budget := after.budget.restore data.budget.remaining })

def mountId (page : String) : String := String.ofList (page.toList.map fun c => if c = '/' then '.' else c)

def runMounts (run : Running) (host : Page) (params : Params) (loaders : Loaders) :
    List PageSlot → RunData → List (Option SlotAt × RunNode) × RunData
  | [], data => ([], data)
  | mount :: mounts, data =>
    let (node, data) := runEmbedded s run host (mountId mount.page) mount.page [] params loaders data
    let (nodes, data) := runMounts run host params loaders mounts data
    ((mount.position, node) :: nodes, data)

/-- The children of a layout, and the pages mounted in its slots by where they go. -/
structure Parts where
  start : List RunNode
  before : List (String × RunNode)
  after : List (String × RunNode)
  resolved : List RunNode

namespace Parts

def none : Parts := ⟨[], [], [], []⟩

def node (node : RunNode) (rest : Parts) : Parts := { rest with resolved := node :: rest.resolved }

def atStart : Option SlotAt × RunNode → Option RunNode
  | (some .start, node) => some node
  | _ => Option.none

def atBefore : Option SlotAt × RunNode → Option (String × RunNode)
  | (some (.before id), node) => some (id, node)
  | _ => Option.none

def atAfter : Option SlotAt × RunNode → Option (String × RunNode)
  | (some (.after id), node) => some (id, node)
  | _ => Option.none

def atSlot : Option SlotAt × RunNode → Option RunNode
  | (some .atEnd, node) => some node
  | (Option.none, node) => some node
  | _ => Option.none

def slot (id : String) (mounted : List (Option SlotAt × RunNode)) (rest : Parts) : Parts where
  start := mounted.filterMap atStart ++ rest.start
  before := mounted.filterMap atBefore ++ rest.before
  after := mounted.filterMap atAfter ++ rest.after
  resolved := .mk id (mounted.filterMap atSlot) Option.none Option.none Option.none :: rest.resolved

def beside (id : String) (nodes : List (String × RunNode)) : List RunNode := (nodes.filter (·.1 == id)).map (·.2)

def children (parts : Parts) : List RunNode :=
  parts.start ++ parts.resolved.flatMap fun node => beside node.id parts.before ++ node :: beside node.id parts.after

end Parts

/-- Another extension's page stands in for the node, if one is to. -/
def replacing (run : Running) (page : Page) (head : Head) (params : Params) (loaders : Loaders)
    (otherwise : RunData → RunNode × RunData) (data : RunData) : RunNode × RunData :=
  match head.replaceable.bind fun target => s.replacement target params with
  | some standIn =>
    let (node, data) := runEmbedded s run page standIn.page standIn.page [] params loaders data
    (.standingFor head.id standIn.extension node, data)
  | none => otherwise data

section
variable (run : Running) (page : Page) (params : Params) (loaders : Loaders)

mutual
def resolve : Node → RunData → RunNode × RunData
  | .layout head _ children, data =>
    replacing s run page head params loaders (fun data =>
      let (parts, data) := resolveAll children data
      (.mk head.id parts.children none none none, data)) data
  | .switch head param children, data =>
    replacing s run page head params loaders (fun data =>
      let (nodes, data) := resolveAt (inViewAt param children params) children data
      (.mk head.id nodes none none none, data)) data
  | .embed head target given, data =>
    replacing s run page head params loaders (runEmbedded s run page head.id target given params loaders) data
  | .slot head name, data =>
    replacing s run page head params loaders (fun data =>
      let (mounted, data) := runMounts s run page params loaders (s.mounts page.id name) data
      (.mk head.id (mounted.map (·.2)) none none none, data)) data
  | .viz head _, data => replacing s run page head params loaders (fun data => (.leaf head.id, data)) data
  | .fixed head, data => replacing s run page head params loaders (fun data => (.leaf head.id, data)) data

/-- The children of a layout; what is mounted in a slot among them goes where it says. -/
def resolveAll : List Node → RunData → Parts × RunData
  | [], data => (.none, data)
  | node :: nodes, data =>
    match node.slotName with
    | some name =>
      let (mounted, data) := runMounts s run page params loaders (s.mounts page.id name) data
      let (parts, data) := resolveAll nodes data
      (parts.slot node.head.id mounted, data)
    | none =>
      let (resolved, data) := resolve node data
      let (parts, data) := resolveAll nodes data
      (parts.node resolved, data)

/-- The child at a place, if it is there. -/
def resolveAt : Nat → List Node → RunData → List RunNode × RunData
  | _, [], data => ([], data)
  | 0, node :: _, data =>
    let (resolved, data) := resolve node data
    ([resolved], data)
  | n + 1, _ :: nodes, data => resolveAt n nodes data
end

def resolveRail : Option Node → RunData → Option RunNode × RunData
  | none, data => (none, data)
  | some node, data =>
    let (resolved, data) := resolve s run page params loaders node data
    (some resolved, data)

end

/-! ## What it says of its rows -/

def badgeOf (page : Page) (loaders : Loaders) : Option SqlCell :=
  page.badge.bind fun badge =>
    (loaders.get badge.loader).bind fun run =>
      (badge.column.elim (some 0) (columnAt run.result.columns)).bind fun i => run.result.rows.head?.bind fun row => row[i]?

/-- The loader that the alert watches. -/
def watched (page : Page) : Option String := (page.badge.map (·.loader)).or (page.firstLoader.map (·.name))

def alertOf (page : Page) (loaders : Loaders) : Option AlertState :=
  page.alert.bind fun alert => (watched page).bind fun name => (loaders.get name).map fun run => s.evaluateAlert alert run.result

def cellTextOf (row : List SqlCell) (i : Nat) : Option String :=
  match row[i]? with
  | some (.text text) => if text.isEmpty then none else some text
  | _ => none

/-- The links of a loader's rows. -/
def rowLinks (result : SqlQueryResult) : List SeeAlso :=
  match columnAt result.columns "title", columnAt result.columns "uri" with
  | some title, some uri =>
    result.rows.filterMap fun row =>
      (cellTextOf row title).bind fun title => (cellTextOf row uri).map fun uri =>
        ⟨title, uri, (columnAt result.columns "description").bind (cellTextOf row)⟩
  | _, _ => []

def declLinks (params : Params) (loaders : Loaders) : SeeAlsoDecl → List SeeAlso
  | .page target given => (s.find target).toOption.toList.map fun child => s.link child (bindArgs s given params loaders)
  | .rows name => ((loaders.get name).filter fun run => run.error.isNone).toList.flatMap fun run => rowLinks run.result

/-- A link is there once by its uri, and not without a title. -/
def pushLink (links : List SeeAlso) (link : SeeAlso) : List SeeAlso :=
  if !link.title.isEmpty && !links.any (·.uri == link.uri) then links ++ [link] else links

def seeAlsoOf (page : Page) (params : Params) (loaders : Loaders) : List SeeAlso :=
  (page.seeAlso.flatMap (declLinks s params loaders)).foldl pushLink []

/-! ## A page -/

def maxDepth : Nat := 8

/-- What a page without a capability it needs shows. -/
def inactiveRun (page : Page) (params : Params) : PageRun :=
  ⟨page, params, [], .leaf page.view.head.id, none, none, none, some ⟨s.unmet page.needs, s.needsMessage (s.unmet page.needs)⟩, []⟩

/-- A page once its params are known, without the loaders it skips. -/
def runLevel (run : Running) (page : Page) (params : Params) (skipped : List String) (data : RunData) :
    Except String PageRun × RunData :=
  match runLoaders s run page params skipped page.loaders [] data with
  | (.error e, data) => (.error e, data)
  | (.ok loaders, data) =>
    let (tree, data) := resolve s run page params loaders page.view data
    let (rail, data) := resolveRail s run page params loaders page.rail data
    (.ok ⟨{ page with rest := s.describe page }, params, loaders, tree, rail, alertOf s page loaders, badgeOf page loaders, none,
      seeAlsoOf s page params loaders⟩, data)

/-- A page, with so many levels of pages allowed: it and those in it. -/
def runPage : Nat → Running
  | 0, page, _, data => (.error ("page `" ++ page.id ++ "` nests more than " ++ toString maxDepth ++ " pages deep"), data)
  | levels + 1, page, supplied, data =>
    match s.resolveParams page supplied with
    | .error e => (.error e, data)
    | .ok params =>
      if (s.unmet page.needs).isEmpty then runLevel s (runPage levels) page params (hiddenLoaders page params) data
      else (.ok (inactiveRun s page params), data)

/-- A run of a page, that reuses what `seed` has by key. -/
def runSeeded (page : Page) (supplied : Params) (seed : Memo) : Except String PageRun × RunData :=
  runPage s (maxDepth + 1) page supplied ⟨seed, ⟨maxResultBytes, false⟩⟩

end

end Oxplow.Runner

/-! `open_runs.rs`: what a re-run of a page changed, for the window that shows it. -/

namespace Oxplow.Runner
open Library
open Pages (SqlCell)

/-- The loaders whose rows differ, an embedded page's under its node's id, and whether the tree did. -/
structure RunChange where
  loaders : List String
  tree : Bool

def RunChange.both (a b : RunChange) : RunChange := ⟨a.loaders ++ b.loaders, a.tree || b.tree⟩

/-! ## As the results compare -/

def infinity : UInt64 := 0x7FF0000000000000

def unsigned (bits : UInt64) : UInt64 := bits &&& 0x7FFFFFFFFFFFFFFF

/-- Floats are equal but for a zero's sign, and one that is not a number is equal to none. -/
def sameReal (a b : UInt64) : Bool :=
  unsigned a ≤ infinity && unsigned b ≤ infinity && (a == b || unsigned a == 0 && unsigned b == 0)

def sameCell : SqlCell → SqlCell → Bool
  | .real a, .real b => sameReal a b
  | a, b => a == b

def sameAll {α : Type} (same : α → α → Bool) : List α → List α → Bool
  | [], [] => true
  | a :: as, b :: bs => same a b && sameAll same as bs
  | _, _ => false

def sameResult (a b : SqlQueryResult) : Bool :=
  a.columns == b.columns && sameAll (sameAll sameCell) a.rows b.rows && a.truncated == b.truncated && a.metadata == b.metadata

def sameLoader : Option LoaderRun → Option LoaderRun → Bool
  | none, none => true
  | some a, some b => sameResult a.result b.result && a.error == b.error
  | _, _ => false

/-! ## `diff` -/

mutual
/-- A tree's node ids and errors. -/
def RunNode.shape : RunNode → List (String × Option String)
  | .mk id children _ error _ => (id, error) :: RunNode.shapeAll children

def RunNode.shapeAll : List RunNode → List (String × Option String)
  | [] => []
  | node :: nodes => node.shape ++ RunNode.shapeAll nodes
end

mutual
/-- The pages embedded in a tree, by the ids of their nodes. -/
def RunNode.embeds : RunNode → List (String × PageRun)
  | .mk id children embed _ _ => embed.toList.map (fun run => (id, run)) ++ RunNode.embedsAll children

def RunNode.embedsAll : List RunNode → List (String × PageRun)
  | [] => []
  | node :: nodes => node.embeds ++ RunNode.embedsAll nodes
end

/-- Those in the rail share the page's ids. -/
def PageRun.embeds (run : PageRun) : List (String × PageRun) := run.tree.embeds ++ run.rail.elim [] RunNode.embeds

/-- The loaders of the two runs themselves. -/
def changedLoaders (old new : PageRun) : List String :=
  let names := new.page.loaders.map (·.name)
  (names ++ (old.page.loaders.map (·.name)).filter fun name => !names.contains name).filter fun name =>
    !sameLoader (old.loaders.get name) (new.loaders.get name)

section
variable [DecidableEq Page]

def changedTree (old new : PageRun) : Bool :=
  old.tree.shape != new.tree.shape || old.rail.map RunNode.shape != new.rail.map RunNode.shape || decide (old.page ≠ new.page) ||
    old.embeds.any fun embed => !new.embeds.any (·.1 == embed.1)

/-- An embedded page's changes, by its node. -/
def under (id : String) (change : RunChange) : RunChange := ⟨change.loaders.map fun loader => id ++ "/" ++ loader, change.tree⟩

mutual
def diff (old : PageRun) : PageRun → RunChange
  | ⟨page, params, loaders, tree, rail, alert, badge, inactive, seeAlso⟩ =>
    let new := ⟨page, params, loaders, tree, rail, alert, badge, inactive, seeAlso⟩
    RunChange.both ⟨changedLoaders old new, changedTree old new⟩ (RunChange.both (diffNode old.embeds tree) (diffRail old.embeds rail))

def diffRail (before : List (String × PageRun)) : Option RunNode → RunChange
  | none => ⟨[], false⟩
  | some node => diffNode before node

def diffNode (before : List (String × PageRun)) : RunNode → RunChange
  | .mk id children embed _ _ => RunChange.both (diffEmbed before id embed) (diffNodes before children)

def diffNodes (before : List (String × PageRun)) : List RunNode → RunChange
  | [] => ⟨[], false⟩
  | node :: nodes => RunChange.both (diffNode before node) (diffNodes before nodes)

/-- An embedded page against the first of its node's id before. -/
def diffEmbed (before : List (String × PageRun)) (id : String) : Option PageRun → RunChange
  | none => ⟨[], false⟩
  | some run =>
    match before.find? (·.1 == id) with
    | some old => under id (diff old.2 run)
    | none => ⟨[], true⟩
end

end

end Oxplow.Runner
