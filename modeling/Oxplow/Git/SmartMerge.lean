import Oxplow.Library.Edits

/-! The token-level three-way merge of `smart_merge.rs`. A text is its list of
characters; a token is a piece of it. The diff of `similar` is a parameter. -/

namespace Oxplow.SmartMerge
open Library.Edits

/-- The conflict `merge3` reports: the two sides change the same base differently. -/
structure Conflicted where
  deriving DecidableEq

/-! ## Tokens -/

/-- How Unicode classifies characters, as `char::is_alphanumeric` and
`char::is_whitespace` answer it. Whitespace is not alphanumeric, a newline is
whitespace and `_` is not. -/
structure CharClasses where
  isAlphanumeric : Char → Bool
  isWhitespace : Char → Bool
  apart : ∀ c, isWhitespace c = true → isAlphanumeric c = false
  newline : isWhitespace '\n' = true
  underscore : isWhitespace '_' = false

variable (classes : CharClasses)

def isWord (c : Char) : Bool := classes.isAlphanumeric c || c == '_'

/-- A character that carries on a run of non-newline whitespace. -/
def isBlank (c : Char) : Bool := c != '\n' && classes.isWhitespace c

/-- A newline alone, a run of word characters, a run of other whitespace, or
any other single character. -/
def tokenize : List Char → List (List Char)
  | [] => []
  | c :: rest =>
    if c = '\n' then [c] :: tokenize rest
    else if isWord classes c then
      (c :: rest.takeWhile (isWord classes)) :: tokenize (rest.dropWhile (isWord classes))
    else if classes.isWhitespace c then
      (c :: rest.takeWhile (isBlank classes)) :: tokenize (rest.dropWhile (isBlank classes))
    else [c] :: tokenize rest
termination_by text => text.length
decreasing_by
  all_goals simp only [List.length_cons]
  all_goals first
    | omega
    | exact Nat.lt_succ_of_le (List.dropWhile_suffix _).length_le

/-! ## The diff -/

/-- `similar::DiffOp`. -/
inductive DiffOp where
  | equal (oldIndex newIndex len : Nat)
  | delete (oldIndex oldLen newIndex : Nat)
  | insert (oldIndex newIndex newLen : Nat)
  | replace (oldIndex oldLen newIndex newLen : Nat)
  deriving DecidableEq

variable {T : Type}

/-- `ops` read on from base index `i` and side index `j` to both ends. -/
inductive Script (old new : List T) : Nat → Nat → List DiffOp → Prop
  | done : Script old new old.length new.length []
  | equal {i j n : Nat} {ops : List DiffOp} (inOld : i + n ≤ old.length) (inNew : j + n ≤ new.length)
      (same : slice old i (i + n) = slice new j (j + n)) (rest : Script old new (i + n) (j + n) ops) :
      Script old new i j (.equal i j n :: ops)
  | delete {i j n : Nat} {ops : List DiffOp} (inOld : i + n ≤ old.length)
      (rest : Script old new (i + n) j ops) : Script old new i j (.delete i n j :: ops)
  | insert {i j n : Nat} {ops : List DiffOp} (inNew : j + n ≤ new.length)
      (rest : Script old new i (j + n) ops) : Script old new i j (.insert i j n :: ops)
  | replace {i j n k : Nat} {ops : List DiffOp} (inOld : i + n ≤ old.length) (inNew : j + k ≤ new.length)
      (rest : Script old new (i + n) (j + k) ops) : Script old new i j (.replace i n j k :: ops)

/-- What `capture_diff_slices` promises: operations in order that turn `old`
into `new`. -/
def EditScript (old new : List T) (ops : List DiffOp) : Prop := Script old new 0 0 ops

/-! ## The merge -/

/-- One contiguous edit against the base, and the side it comes from. -/
structure Change (T : Type) extends Edit T where
  theirs : Bool
  deriving DecidableEq

/-- The non-equal changes a base→side diff implies. -/
def changesFromOps (ops : List DiffOp) (side : List T) (theirs : Bool) : List (Change T) :=
  ops.flatMap fun
    | .equal .. => []
    | .delete oldIndex oldLen _ => [{ start := oldIndex, stop := oldIndex + oldLen, new := [], theirs }]
    | .insert oldIndex newIndex newLen =>
      [{ start := oldIndex, stop := oldIndex, new := slice side newIndex (newIndex + newLen), theirs }]
    | .replace oldIndex oldLen newIndex newLen =>
      [{ start := oldIndex, stop := oldIndex + oldLen,
         new := slice side newIndex (newIndex + newLen), theirs }]

/-- One side's tokens over the base range `[lo, hi)`: only that side's changes made. -/
def reconstruct (base : List T) (lo hi : Nat) (cluster : List (Change T)) (theirs : Bool) : List T :=
  let (out, pos) := (cluster.filter (·.theirs == theirs)).foldl
    (fun (out, pos) ch => (out ++ slice base pos ch.start ++ ch.new, ch.stop)) ([], lo)
  out ++ slice base pos hi

/-- The order the changes are walked in: zero-width inserts before the change
that starts at the same index. -/
def before (a b : Change T) : Prop := a.start < b.start ∨ a.start = b.start ∧ a.stop ≤ b.stop

instance : DecidableRel (before (T := T)) := fun _ _ => inferInstanceAs (Decidable (_ ∨ _))

/-- Changes walked together, over the base range `[lo, hi)`. -/
structure Cluster (T : Type) where
  lo : Nat
  hi : Nat
  changes : List (Change T)
  deriving DecidableEq

/-- The two nested loops over the ordered changes: a change joins the open
cluster when it overlaps it, or when both are inserts at one gap; otherwise the
cluster is complete and the change opens the next one. -/
def clustersFrom (lo hi : Nat) (pureInsert : Bool) (taken : List (Change T)) :
    List (Change T) → List (Cluster T)
  | [] => [⟨lo, hi, taken⟩]
  | next :: rest =>
    if next.start < hi || (pureInsert && next.start == hi && next.start == next.stop) then
      clustersFrom lo (max hi next.stop) pureInsert (taken ++ [next]) rest
    else ⟨lo, hi, taken⟩ :: clustersFrom next.start next.stop (next.start == next.stop) [next] rest

def clusters : List (Change T) → List (Cluster T)
  | [] => []
  | first :: rest => clustersFrom first.start first.stop (first.start == first.stop) [first] rest

variable [DecidableEq T]

/-- The text a cluster resolves to, when only one side changed it or both agree. -/
def resolve (base : List T) (cluster : Cluster T) : Except Conflicted (List T) :=
  let oursRepl := reconstruct base cluster.lo cluster.hi cluster.changes false
  let theirsRepl := reconstruct base cluster.lo cluster.hi cluster.changes true
  let baseSlice := slice base cluster.lo cluster.hi
  if oursRepl = theirsRepl then .ok oursRepl
  else if oursRepl = baseSlice then .ok theirsRepl
  else if theirsRepl = baseSlice then .ok oursRepl
  else .error {}

/-- Emit the untouched base before the cluster and what the cluster resolves to. -/
def mergeCluster (base : List T) (state : List T × Nat) (cluster : Cluster T) :
    Except Conflicted (List T × Nat) := do
  let resolved ← resolve base cluster
  return (state.1 ++ slice base state.2 cluster.lo ++ resolved, cluster.hi)

/-- The changes of both sides in the order they are walked. -/
def sortedChanges (diff : List T → List T → List DiffOp) (base ours theirs : List T) : List (Change T) :=
  (changesFromOps (diff base ours) ours false ++
    changesFromOps (diff base theirs) theirs true).insertionSort before

/-- Classic diff3 over token sequences. -/
def merge3 (diff : List T → List T → List DiffOp) (base ours theirs : List T) :
    Except Conflicted (List T) := do
  let (out, pos) ← (clusters (sortedChanges diff base ours theirs)).foldlM (mergeCluster base) ([], 0)
  return out ++ base.drop pos

/-- Tokenize the three revisions, merge them, and join the result. -/
def merge3Str (diff : List (List Char) → List (List Char) → List DiffOp) (base ours theirs : List Char) :
    Except Conflicted (List Char) := do
  let merged ← merge3 diff (tokenize classes base) (tokenize classes ours) (tokenize classes theirs)
  return merged.flatten

end Oxplow.SmartMerge
