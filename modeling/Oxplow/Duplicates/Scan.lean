import Mathlib.Data.List.Dedup
import Mathlib.Data.List.Sort
import Mathlib.Data.Prod.Lex
import Mathlib.Data.String.Basic
import Oxplow.Library.Maps

/-! `oxplow-code-dup`: subtrees of functions paired by their hash, and the blocks reported. The
order in which a hash map is walked is any. -/

namespace Oxplow.Duplicates
open Library (InsertionMap)

/-- One duplicate pair. -/
structure DuplicateBlock where
  aPath : String
  aStartLine : Nat
  aEndLine : Nat
  bPath : String
  bStartLine : Nat
  bEndLine : Nat
  lineCount : Nat
  deriving DecidableEq

/-- One subtree that is eligible for matching, with the function it is in. -/
structure SubtreeRef where
  path : String
  fnByteStart : Nat
  fnByteEnd : Nat
  startLine : Nat
  endLine : Nat
  nodeCount : Nat
  hash : UInt64
  deriving DecidableEq

/-- A function: its path and byte range, in this order. -/
abbrev FnId := Lex (String × Lex (Nat × Nat))

instance instDecidableEqFnId : DecidableEq FnId := inferInstance

def fnOf (s : SubtreeRef) : FnId := toLex (s.path, toLex (s.fnByteStart, s.fnByteEnd))

/-- What a family is sorted by. -/
def sortKey (s : SubtreeRef) : Lex (FnId × Nat) := toLex (fnOf s, s.startLine)

/-- The two in the order of their functions. -/
def order (a b : SubtreeRef) : SubtreeRef × SubtreeRef := if fnOf a ≤ fnOf b then (a, b) else (b, a)

/-- Two matching subtrees. -/
structure Match where
  size : Nat
  lo : SubtreeRef
  hi : SubtreeRef
  deriving DecidableEq

namespace Match

def pair (m : Match) : FnId × FnId := (fnOf m.lo, fnOf m.hi)

end Match

def link (a b : SubtreeRef) : Match :=
  let ordered := order a b
  ⟨min ordered.1.nodeCount ordered.2.nodeCount, ordered.1, ordered.2⟩

/-- The subtrees of one hash. -/
def family (subtrees : List SubtreeRef) (hash : UInt64) : List SubtreeRef := subtrees.filter fun s => s.hash = hash

/-- Each member of a family linked to one peer: the first, or for a member of the first's function the
first of another. -/
def links (family : List SubtreeRef) : List Match :=
  if family.length < 2 then []
  else
    let sorted := family.insertionSort fun a b => sortKey a ≤ sortKey b
    match sorted with
    | [] => []
    | first :: _ =>
      match sorted.find? fun s => fnOf s ≠ fnOf first with
      | none => []
      | some other => sorted.map fun m => link m (if fnOf m = fnOf first then other else first)

/-- The best match for each pair of functions. -/
abbrev Best := InsertionMap (FnId × FnId) Match

/-- A candidate takes the place of a smaller one. -/
def note (best : Best) (candidate : Match) : Best :=
  let entry := (best.get candidate.pair).getD ⟨0, candidate.lo, candidate.hi⟩
  best.set candidate.pair (if entry.size < candidate.size then candidate else entry)

def bestOf (families : List (List SubtreeRef)) : Best := (families.flatMap links).foldl note .empty

def blockOf (m : Match) : DuplicateBlock where
  aPath := m.lo.path
  aStartLine := m.lo.startLine
  aEndLine := m.lo.endLine
  bPath := m.hi.path
  bStartLine := m.hi.startLine
  bEndLine := m.hi.endLine
  lineCount := max (m.lo.endLine - m.lo.startLine + 1) (m.hi.endLine - m.hi.startLine + 1)

/-- What the blocks are sorted by. -/
def blockKey (b : DuplicateBlock) : Lex (String × Lex (Nat × Lex (String × Nat))) :=
  toLex (b.aPath, toLex (b.aStartLine, toLex (b.bPath, b.bStartLine)))

def sortBlocks (blocks : List DuplicateBlock) : List DuplicateBlock :=
  blocks.insertionSort fun x y => blockKey x ≤ blockKey y

/-- The hashes that `by_hash` has as its keys. -/
def hashes (subtrees : List SubtreeRef) : List UInt64 := (subtrees.map SubtreeRef.hash).dedup

/-- `best` once the families were walked in some order. -/
def Pairs (subtrees : List SubtreeRef) (best : Best) : Prop :=
  ∃ walk : List UInt64, walk.Perm (hashes subtrees) ∧ best = bestOf (walk.map (family subtrees))

/-- `out` is what `pair_up` can return: the two maps are walked in some order each. -/
def PairUp (subtrees : List SubtreeRef) (out : List DuplicateBlock) : Prop :=
  ∃ (best : Best) (values : List Match), Pairs subtrees best ∧ values.Perm (best.entries.map Prod.snd) ∧
    out = sortBlocks (values.map blockOf)

/-! ## Scopes -/

/-- A block as a scoped scan reports it: the side in scope first. -/
def scopeBlock (scope : List String) (block : DuplicateBlock) : Option DuplicateBlock :=
  if block.aPath = block.bPath then none
  else if block.aPath ∉ scope ∧ block.bPath ∉ scope then none
  else if block.aPath ∉ scope then
    some ⟨block.bPath, block.bStartLine, block.bEndLine, block.aPath, block.aStartLine, block.aEndLine, block.lineCount⟩
  else some block

def scopeBlocks (raw : List DuplicateBlock) (scope : List String) : List DuplicateBlock := raw.filterMap (scopeBlock scope)

end Oxplow.Duplicates

/-! `oxplow-code-dup`: the subtrees of a corpus, read from every file, from the files of a scope and
what matches them, or from a cache of earlier scans. -/

namespace Oxplow.Duplicates
open Library (InsertionMap)

inductive Language where
  | rust | typeScript | tsx | javaScript | python | go | java | c | cpp | clojure | cSharp
  deriving DecidableEq

/-- Stable tag, also the cache's. -/
def Language.tag : Language → Nat
  | rust => 1
  | typeScript => 2
  | tsx => 3
  | javaScript => 4
  | python => 5
  | go => 6
  | java => 7
  | c => 8
  | cpp => 9
  | clojure => 10
  | cSharp => 11

/-- A syntax tree; rows start at 0. -/
inductive Node where
  | mk (kind : String) (startByte endByte startRow endRow : Nat) (children : List Node)

namespace Node

def kind : Node → String
  | mk kind _ _ _ _ _ => kind

def rows : Node → Nat × Nat
  | mk _ _ _ startRow endRow _ => (startRow, endRow)

mutual

/-- No node reaches past the text. -/
def Within (limit : Nat) : Node → Prop
  | mk _ startByte endByte _ _ children => startByte ≤ limit ∧ endByte ≤ limit ∧ AllWithin limit children

def AllWithin (limit : Nat) : List Node → Prop
  | [] => True
  | node :: rest => node.Within limit ∧ AllWithin limit rest

end

end Node

/-- The parsers and the tables of the languages; any. -/
structure Grammars where
  languageForPath : String → Option Language
  parse : Language → String → Option Node
  isFunctionNode : Language → Node → String → Bool
  isSkipNode : Language → Node → String → Bool

structure DupOptions where
  minLines : Nat
  minNodes : Nat
  deriving DecidableEq

/-! ## Hashing -/

structure SubtreeHash where
  hash : UInt64
  nodeCount : Nat
  startLine : Nat
  endLine : Nat

def foldByte (acc : UInt64) (b : UInt8) : UInt64 := (acc ^^^ b.toUInt64) * 0x00000100000001B3

def foldStr (acc : UInt64) (s : String) : UInt64 := foldByte (s.toUTF8.data.toList.foldl foldByte acc) 0xFE

def isCommentKind (kind : String) : Bool := kind ∈ ["comment", "line_comment", "block_comment", "doc_comment"]

/-- Identifiers and literals in one bucket each. -/
def normalizeKind (kind : String) : String :=
  if kind ∈ ["identifier", "type_identifier", "field_identifier", "property_identifier", "shorthand_property_identifier",
      "shorthand_property_identifier_pattern", "primitive_type", "scoped_identifier", "scoped_type_identifier"] then "ID"
  else if kind ∈ ["integer_literal", "decimal_integer_literal", "hex_integer_literal", "octal_integer_literal",
      "binary_integer_literal", "float_literal", "decimal_floating_point_literal", "hex_floating_point_literal", "number",
      "integer", "float"] then "NUM"
  else if kind ∈ ["string_literal", "raw_string_literal", "char_literal", "string", "string_fragment",
      "interpreted_string_literal", "raw_string_fragment"] then "STR"
  else kind

section Hashing

variable (g : Grammars) (lang : Language) (src : String)

mutual

/-- The hash and the count after a subtree. -/
def walkHash (acc : UInt64 × Nat) : Node → UInt64 × Nat
  | .mk kind startByte endByte startRow endRow children =>
    if isCommentKind kind || g.isSkipNode lang (.mk kind startByte endByte startRow endRow children) src then acc
    else
      let inner := walkHashAll (foldStr acc.1 (normalizeKind kind), acc.2 + 1) children
      (foldByte inner.1 0xFF, inner.2)

def walkHashAll (acc : UInt64 × Nat) : List Node → UInt64 × Nat
  | [] => acc
  | child :: rest => walkHashAll (walkHash acc child) rest

end

def hashSubtree (root : Node) : SubtreeHash :=
  let folded := walkHash g lang src (0xcbf29ce484222325 ^^^ UInt64.ofNat lang.tag, 0) root
  ⟨folded.1, folded.2, root.rows.1 + 1, root.rows.2 + 1⟩

end Hashing

/-! ## Subtrees -/

section Walking

variable (g : Grammars) (path : String) (lang : Language) (src : String) (opts : DupOptions) (wanted : Option (List UInt64))

/-- A node's own subtree, when it is big enough and wanted. -/
def ownSubtree (fn : Nat × Nat) (node : Node) : List SubtreeRef :=
  let h := hashSubtree g lang src node
  if opts.minNodes ≤ h.nodeCount ∧ opts.minLines ≤ h.endLine - h.startLine + 1 ∧ wanted.all (h.hash ∈ ·) then
    [⟨path, fn.1, fn.2, h.startLine, h.endLine, h.nodeCount, h.hash⟩]
  else []

mutual

/-- The subtrees of a function, without those of the functions in it. -/
def collectSubtrees (fn : Nat × Nat) (isRoot : Bool) : Node → List SubtreeRef
  | .mk kind startByte endByte startRow endRow children =>
    if !isRoot && g.isFunctionNode lang (.mk kind startByte endByte startRow endRow children) src then []
    else ownSubtree g path lang src opts wanted fn (.mk kind startByte endByte startRow endRow children) ++ collectChildren fn children

def collectChildren (fn : Nat × Nat) : List Node → List SubtreeRef
  | [] => []
  | child :: rest =>
    (if !isCommentKind child.kind && !g.isSkipNode lang child src then collectSubtrees fn false child else []) ++
      collectChildren fn rest

end

mutual

/-- Every function of the tree, with its subtrees. -/
def walkForFunctions : Node → List SubtreeRef
  | .mk kind startByte endByte startRow endRow children =>
    (if g.isFunctionNode lang (.mk kind startByte endByte startRow endRow children) src then
      collectSubtrees g path lang src opts wanted (startByte, endByte) true (.mk kind startByte endByte startRow endRow children)
    else []) ++ walkAll children

def walkAll : List Node → List SubtreeRef
  | [] => []
  | child :: rest => walkForFunctions child ++ walkAll rest

end

end Walking

/-- The subtrees of one file: all of them, or those whose hash is wanted. -/
def scanFile (g : Grammars) (path source : String) (opts : DupOptions) (wanted : Option (List UInt64)) : List SubtreeRef :=
  match g.languageForPath path with
  | none => []
  | some lang =>
    match g.parse lang source with
    | none => []
    | some root => walkForFunctions g path lang source opts wanted root

/-- The subtrees of the whole corpus. -/
def wholeSubtrees (g : Grammars) (files : List (String × String)) (opts : DupOptions) : List SubtreeRef :=
  files.flatMap fun file => scanFile g file.1 file.2 opts none

/-- The scope's subtrees, then those of the other files that match one of them. -/
def scopedSubtrees (g : Grammars) (files : List (String × String)) (scope : List String) (opts : DupOptions) :
    List SubtreeRef :=
  let inScope := files.filter fun file => file.1 ∈ scope
  let rest := files.filter fun file => !(file.1 ∈ scope)
  let subtrees := inScope.flatMap fun file => scanFile g file.1 file.2 opts none
  let wanted := subtrees.map SubtreeRef.hash
  subtrees ++ rest.flatMap fun file => scanFile g file.1 file.2 opts (some wanted)

/-! ## The cache -/

structure Record where
  hash : UInt64
  nodeCount : Nat
  startLine : Nat
  endLine : Nat
  fnByteStart : Nat
  fnByteEnd : Nat
  deriving DecidableEq

/-- Bytes of one record. -/
def recordBytes : Nat := 32

def detectorVersion : Nat := 1

/-- A file's content: the space its id is in and the id. -/
structure FileKey where
  space : String
  id : String
  deriving DecidableEq

structure CacheKey where
  file : FileKey
  lang : Nat
  minNodes : Nat
  minLines : Nat
  version : Nat
  deriving DecidableEq

structure ScanStats where
  hits : Nat
  misses : Nat
  deriving DecidableEq

structure Entry where
  records : List Record
  tick : Nat

/-- `order` holds the keys by the tick of their last use, the least recently used first. -/
structure DupCache where
  budget : Nat
  entries : InsertionMap CacheKey Entry
  order : List (Nat × CacheKey)
  tick : Nat
  bytes : Nat

namespace DupCache

def withBudget (bytes : Nat) : DupCache := ⟨bytes, .empty, [], 0, 0⟩

def get (cache : DupCache) (key : CacheKey) : Option (List Record) × DupCache :=
  let tick := cache.tick + 1
  match cache.entries.get key with
  | none => (none, { cache with tick })
  | some entry =>
    (some entry.records,
      { cache with
        entries := cache.entries.set key { entry with tick }
        order := cache.order.filter (·.1 ≠ entry.tick) ++ [(tick, key)]
        tick })

/-- The least recently used go until `cost` fits. -/
def evict (cost budget : Nat) : List (Nat × CacheKey) → InsertionMap CacheKey Entry → Nat →
    List (Nat × CacheKey) × InsertionMap CacheKey Entry × Nat
  | [], entries, bytes => ([], entries, bytes)
  | (tick, oldest) :: order, entries, bytes =>
    if budget < bytes + cost then
      match entries.get oldest with
      | none => evict cost budget order entries bytes
      | some gone => evict cost budget order (entries.delete oldest) (bytes - gone.records.length * recordBytes)
    else ((tick, oldest) :: order, entries, bytes)

def put (cache : DupCache) (key : CacheKey) (records : List Record) : DupCache :=
  let cost := records.length * recordBytes
  if cache.budget < cost then cache
  else
    let order := match cache.entries.get key with
      | none => cache.order
      | some old => cache.order.filter (·.1 ≠ old.tick)
    let bytes := match cache.entries.get key with
      | none => cache.bytes
      | some old => cache.bytes - old.records.length * recordBytes
    let left := evict cost cache.budget order (cache.entries.delete key) bytes
    let tick := cache.tick + 1
    { cache with
      entries := left.2.1.set key ⟨records, tick⟩
      order := left.1 ++ [(tick, key)]
      tick
      bytes := left.2.2 + cost }

end DupCache

/-- A file for a cached scan; `text` is what reading it gives. -/
structure CachedFile where
  path : String
  key : Option FileKey
  text : Option String

def saturate (n : Nat) : Nat := min n 4294967295

def toRecord (s : SubtreeRef) : Record :=
  ⟨s.hash, s.nodeCount, s.startLine, s.endLine, saturate s.fnByteStart, saturate s.fnByteEnd⟩

def subtreeOf (path : String) (r : Record) : SubtreeRef :=
  ⟨path, r.fnByteStart, r.fnByteEnd, r.startLine, r.endLine, r.nodeCount, r.hash⟩

/-- A scan under way. -/
structure Scanning where
  cache : DupCache
  stats : ScanStats

/-- A file that is not in the cache is read, and kept when it has a content id. -/
def readFresh (g : Grammars) (file : CachedFile) (opts : DupOptions) (key : Option CacheKey) (scan : Scanning) :
    Option (List Record) × Scanning :=
  let scan := { scan with stats := { scan.stats with misses := scan.stats.misses + 1 } }
  match file.text with
  | none => (none, scan)
  | some text =>
    let records := (scanFile g file.path text opts none).map toRecord
    match key with
    | none => (some records, scan)
    | some key => (some records, { scan with cache := scan.cache.put key records })

/-- A file's records: from the cache, else read. -/
def recordsOf (g : Grammars) (file : CachedFile) (opts : DupOptions) (scan : Scanning) : Option (List Record) × Scanning :=
  match g.languageForPath file.path with
  | none => (none, scan)
  | some lang =>
    match file.key with
    | none => readFresh g file opts none scan
    | some id =>
      let key := ⟨id, lang.tag, opts.minNodes, opts.minLines, detectorVersion⟩
      match scan.cache.get key with
      | (some records, cache) => (some records, ⟨cache, { scan.stats with hits := scan.stats.hits + 1 }⟩)
      | (none, cache) => readFresh g file opts (some key) { scan with cache }

/-- The subtrees kept of each file, one file after the other. -/
def gather (g : Grammars) (opts : DupOptions) (keep : Record → Bool) : List CachedFile → Scanning → List SubtreeRef × Scanning
  | [], scan => ([], scan)
  | file :: files, scan =>
    let read := recordsOf g file opts scan
    let rest := gather g opts keep files read.2
    (((read.1.getD []).filter keep).map (subtreeOf file.path) ++ rest.1, rest.2)

/-- The subtrees a cached scan pairs, and the cache it leaves. -/
def cachedSubtrees (g : Grammars) (files : List CachedFile) (scope : List String) (opts : DupOptions) (cache : DupCache) :
    List SubtreeRef × Scanning :=
  let inScope := gather g opts (fun _ => true) (files.filter fun file => file.path ∈ scope) ⟨cache, ⟨0, 0⟩⟩
  let wanted := inScope.1.map SubtreeRef.hash
  let rest := gather g opts (fun r => r.hash ∈ wanted) (files.filter fun file => !(file.path ∈ scope)) inScope.2
  (inScope.1 ++ rest.1, rest.2)

/-- What a scoped scan over these subtrees can report. -/
def ScopedReport (subtrees : List SubtreeRef) (scope : List String) (out : List DuplicateBlock) : Prop :=
  ∃ raw, PairUp subtrees raw ∧ out = scopeBlocks raw scope

end Oxplow.Duplicates
