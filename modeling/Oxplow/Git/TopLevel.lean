import Oxplow.Git.AstMerge
import Oxplow.Harnesses.Claude
import Oxplow.Library.Covers

/-! `ast_merge.rs`, from a parsed file to its top-level items. The tree-sitter grammars are a
parameter; what a node is asked for is what its tree holds. -/

namespace Oxplow.Ast
open Harnesses (isWhitespace trim)

/-! ## Texts -/

/-- The characters that start from byte `start` on and before byte `stop`; the first of the text
starts at `place`. -/
def charsIn (start stop place : Nat) : List Char → List Char
  | [] => []
  | c :: rest =>
    if start ≤ place ∧ place < stop then c :: charsIn start stop (place + c.utf8Size) rest
    else charsIn start stop (place + c.utf8Size) rest

/-- `src[start..stop]`, of two character boundaries. -/
def slice (src : String) (span : Nat × Nat) : String := String.ofList (charsIn span.1 span.2 0 src.toList)

/-- `text.trim().is_empty()`. -/
def blank (text : String) : Bool := trim text.toList == []

/-- Interior whitespace runs collapsed to single spaces. -/
def normalizeWs (text : String) : String :=
  String.ofList ([' '].intercalate ((text.toList.splitOnP isWhitespace).filter (· ≠ [])))

/-! ## Trees -/

/-- A node of a parse tree, under the field its parent has it in. -/
structure Node where
  field : Option String
  kind : String
  startByte : Nat
  endByte : Nat
  isExtra : Bool
  children : List Node

def Node.span (node : Node) : Nat × Nat := (node.startByte, node.endByte)

def Node.childByFieldName (node : Node) (name : String) : Option Node := node.children.find? fun child => child.field == some name

def Node.childrenByFieldName (node : Node) (name : String) : List Node := node.children.filter fun child => child.field == some name

/-- The root's children, and whether a node of the tree is an error or missing. -/
structure Tree where
  children : List Node
  hasError : Bool

def nodeText (node : Node) (src : String) : String := String.ofList (trim (slice src node.span).toList)

/-! ## Languages -/

inductive Language where
  | rust | typeScript | tsx | javaScript | python | go | java | c | cpp | clojure | cSharp
  deriving DecidableEq

/-- How the key of an item that is no import is found. -/
inductive KeyStrategy where
  | generic | cFamily | clojure
  deriving DecidableEq

/-- The node kinds and field names that identity is read from. -/
structure MergeSpec where
  importKinds : List String
  transparentKinds : List String
  innerDeclFields : List String
  nameFields : List String
  keyStrategy : KeyStrategy

/-- A language whose declarations have their name in a field. -/
def MergeSpec.named (importKinds : List String) : MergeSpec := ⟨importKinds, [], [], ["name"], .generic⟩

/-- TypeScript's, TSX's and JavaScript's. -/
def MergeSpec.script : MergeSpec := ⟨["import_statement"], ["export_statement"], ["declaration"], ["name"], .generic⟩

def mergeSpec : Language → Option MergeSpec
  | .rust => some (.named ["use_declaration", "extern_crate_declaration"])
  | .typeScript => some .script
  | .tsx => some .script
  | .javaScript => some .script
  | .python => some ⟨["import_statement", "import_from_statement", "future_import_statement"], ["decorated_definition"], ["definition"],
      ["name"], .generic⟩
  | .go => some (.named ["import_declaration"])
  | .java => some (.named ["import_declaration"])
  | .c => some ⟨["preproc_include"], [], [], [], .cFamily⟩
  | .cpp => some ⟨["preproc_include"], [], [], [], .cFamily⟩
  | .clojure => some ⟨[], [], [], [], .clojure⟩
  | .cSharp => none

/-! ## Keys -/

/-- The key of an item with no name: its kind and its normalized text. -/
def textKey (node : Node) (src : String) : String := node.kind ++ "::" ++ normalizeWs (nodeText node src)

def innerDecl (node : Node) (spec : MergeSpec) : Option Node := spec.innerDeclFields.findSome? node.childByFieldName

def declName (node : Node) (src : String) (spec : MergeSpec) : Option String :=
  (spec.nameFields.findSome? node.childByFieldName).map fun name => nodeText name src

/-- Wrappers are seen through, and a method is told apart by its receiver. -/
def genericItemKey (node : Node) (src : String) (spec : MergeSpec) : String :=
  let named := if spec.transparentKinds.contains node.kind then (innerDecl node spec).getD node else node
  match declName named src spec, named.childByFieldName "receiver" with
  | some name, some recv => named.kind ++ "::" ++ normalizeWs (nodeText recv src) ++ "::" ++ name
  | some name, none => named.kind ++ "::" ++ name
  | none, _ => textKey node src

def cTemplateInner (node : Node) : Option Node :=
  node.children.find? fun child =>
    ["function_definition", "struct_specifier", "union_specifier", "enum_specifier", "class_specifier", "declaration"].contains child.kind

def leafKinds : List String := ["identifier", "type_identifier", "field_identifier", "qualified_identifier"]

mutual

/-- A node's `declarator` chain, down to its identifier. -/
def cDeclaratorLeafName : Node → Option Node
  | ⟨_, _, _, _, _, children⟩ => leafNameIn children

/-- The chain from the first of the children that is a declarator. -/
def leafNameIn : List Node → Option Node
  | [] => none
  | child :: rest =>
    if child.field = some "declarator" then (if leafKinds.contains child.kind then some child else cDeclaratorLeafName child)
    else leafNameIn rest

end

/-- Functions have their declarator for a key, types their name, the rest the identifier declared. -/
def cFamilyItemKey (node : Node) (src : String) : String :=
  let inner := if node.kind = "template_declaration" then (cTemplateInner node).getD node else node
  let key :=
    if inner.kind = "function_definition" then
      (inner.childByFieldName "declarator").map fun d => "function_definition::" ++ normalizeWs (nodeText d src)
    else if ["struct_specifier", "union_specifier", "enum_specifier", "class_specifier", "namespace_definition"].contains inner.kind then
      (inner.childByFieldName "name").map fun name => inner.kind ++ "::" ++ nodeText name src
    else if ["type_definition", "declaration"].contains inner.kind then
      (cDeclaratorLeafName inner).map fun name => inner.kind ++ "::" ++ nodeText name src
    else none
  key.getD (textKey node src)

def clojureDefHeads : List String :=
  ["def", "defn", "defn-", "defmacro", "defmulti", "defmethod", "defprotocol", "defrecord", "deftype", "definterface", "defonce", "ns"]

/-- A form that defines has its head and the name for a key. -/
def clojureItemKey (node : Node) (src : String) : String :=
  match node.childrenByFieldName "value" with
  | head :: name :: _ =>
    if node.kind = "list_lit" ∧ clojureDefHeads.contains (nodeText head src) then
      nodeText head src ++ "::" ++ normalizeWs (nodeText name src)
    else textKey node src
  | _ => textKey node src

def itemKey (node : Node) (src : String) (spec : MergeSpec) : String :=
  if spec.importKinds.contains node.kind then "import::" ++ normalizeWs (nodeText node src)
  else match spec.keyStrategy with
    | .generic => genericItemKey node src spec
    | .cFamily => cFamilyItemKey node src
    | .clojure => clojureItemKey node src

/-! ## Items -/

/-- The mark of a standalone comment block's key. -/
def commentKeyPrefix : String := "#comment::"

/-- A detached run of comments is an item, unless it is whitespace. -/
def pushCommentItem (items : List Item) (src : String) (span : Nat × Nat) : List Item :=
  let text := slice src span
  if blank text then items else items ++ [⟨commentKeyPrefix ++ normalizeWs text, text, span⟩]

/-- `gap.contains("\n\n")`. -/
def detaches (gap : String) : Bool := decide (['\n', '\n'] <:+: gap.toList)

/-- The items and the run of comments that waits for the next declaration. -/
abbrev Reduction := List Item × Option (Nat × Nat)

/-- Where a declaration's item starts, and the items before it: a run directly attached to the
declaration is part of its item, a detached one its own. -/
def absorbRun (src : String) (r : Reduction) (start : Nat) : List Item × Nat :=
  match r.2 with
  | none => (r.1, start)
  | some run => if detaches (slice src (run.2, start)) then (pushCommentItem r.1 src run, start) else (r.1, run.1)

/-- One child of the root. -/
def takeChild (src : String) (spec : MergeSpec) (r : Reduction) (child : Node) : Reduction :=
  if child.isExtra then (r.1, some ((r.2.map Prod.fst).getD child.startByte, child.endByte))
  else
    let (items, start) := absorbRun src r child.startByte
    (items ++ [⟨itemKey child src spec, slice src (start, child.endByte), (start, child.endByte)⟩], none)

/-- The run that trails the last declaration is an item too. -/
def flush (src : String) (r : Reduction) : List Item :=
  match r.2 with
  | none => r.1
  | some run => pushCommentItem r.1 src run

def topLevelItems (src : String) (spec : MergeSpec) (children : List Node) : List Item :=
  flush src (children.foldl (takeChild src spec) ([], none))

/-- A file's items; `none` for a language that is not merged and for a tree with an error. -/
def parseTopLevelItems (grammar : Language → String → Option Tree) (src : String) (lang : Language) : Option (List Item) :=
  (mergeSpec lang).bind fun spec => (grammar lang src).bind fun tree =>
    if tree.hasError then none else some (topLevelItems src spec tree.children)

/-- `merge_top_level`. -/
def mergeTopLevel (grammar : Language → String → Option Tree) (reconstruct : List Item → String) (base ours theirs : String) (lang : Language) :
    AstMerge :=
  mergeWithReconstruct (fun src => parseTopLevelItems grammar src lang) reconstruct base ours theirs

end Oxplow.Ast
