import Mathlib.Data.List.Dedup
import Mathlib.Data.List.Rotate
import Mathlib.Data.List.Sort
import Mathlib.Data.Prod.Lex
import Mathlib.Data.String.Basic
import Mathlib.Order.WithBot
import Oxplow.Jobs.JobStore
import Oxplow.Library.Table

/-! `ordering.rs`: what runs after what when one event reaches several contributions. The
`after:` of the contributions is compiled into levels. -/

namespace Oxplow.Extensions
open Jobs Library

/-- What a ref is ordered by: its kind, then its extension, then its name. -/
def refKey (ref : ContributionRef) : Nat ×ₗ WithBot String ×ₗ String :=
  toLex (ref.kind.ctorIdx, toLex ((ref.extension : WithBot String), ref.name))

theorem refKey_injective : Function.Injective refKey := by
  rintro ⟨kind, extension, name⟩ ⟨kind', extension', name'⟩ same
  have parts := Prod.mk.inj (toLex.injective same)
  have rest := Prod.mk.inj (toLex.injective parts.2)
  have kinds : kind = kind' := by
    have index := congrArg ContributionKind.ofNat parts.1
    rwa [ContributionKind.ofNat_ctorIdx, ContributionKind.ofNat_ctorIdx] at index
  have extensions : extension = extension' := rest.1
  have names : name = name' := rest.2
  rw [kinds, extensions, names]

instance : LinearOrder ContributionRef where
  le a b := refKey a ≤ refKey b
  le_refl a := le_refl (refKey a)
  le_trans _ _ _ := le_trans
  le_antisymm _ _ first second := refKey_injective (le_antisymm first second)
  le_total a b := le_total (refKey a) (refKey b)
  toDecidableLE := fun a b => inferInstanceAs (Decidable (refKey a ≤ refKey b))
  toDecidableEq := inferInstance

/-- A resolved ordering target. -/
inductive After where
  | contribution (ref : ContributionRef)
  /-- One of core's event consumers, by name. -/
  | consumer (name : String)
  deriving DecidableEq

structure Node where
  id : ContributionRef
  after : List After

inductive OrderError where
  /-- `by'` runs after `target`, which nothing declares. The source has the target's ref as text. -/
  | unknown (by' : ContributionRef) (target : After)
  | cycle (cycle : List ContributionRef)

structure Order where
  levels : Table ContributionRef Nat
  after : Table ContributionRef (List After)

/-- A `BTreeSet`, as the list of its members in order. -/
def sortedSet (ids : List ContributionRef) : List ContributionRef := ids.dedup.insertionSort (· ≤ ·)

abbrev Edges := Table ContributionRef (List ContributionRef)

/-- The `edges[id]` of the source, which is there for each known id. -/
def predecessors (edges : Edges) (id : ContributionRef) : List ContributionRef := (edges.get id).getD []

section
variable (known : List ContributionRef) (consumers : List String)

/-- The predecessors that a node's targets name. -/
def targetPreds (after : List After) : List ContributionRef :=
  after.filterMap fun
    | .contribution ref => if ref ∈ known then some ref else none
    | .consumer _ => none

/-- The targets that nothing declares. -/
def unknownTargets (after : List After) : List After :=
  after.filter fun
    | .contribution ref => ref ∉ known
    | .consumer name => !consumers.contains name

def addNode (sofar : Edges × List OrderError) (node : Node) : Edges × List OrderError :=
  (sofar.1.insert node.id (targetPreds known node.after),
    sofar.2 ++ (unknownTargets known consumers node.after).map (.unknown node.id))

end

section
variable (edges : Edges)

/-- What is left whose predecessors are all placed. -/
def ready (levels : Table ContributionRef Nat) (remaining : List ContributionRef) : List ContributionRef :=
  remaining.filter fun id => (predecessors edges id).all levels.containsKey

def waiting (levels : Table ContributionRef Nat) (remaining : List ContributionRef) : List ContributionRef :=
  remaining.filter (· ∉ ready edges levels remaining)

theorem waiting_shorter {levels : Table ContributionRef Nat} {remaining : List ContributionRef}
    (some' : ready edges levels remaining ≠ []) : (waiting edges levels remaining).length < remaining.length := by
  obtain ⟨id, member⟩ := List.exists_mem_of_ne_nil _ some'
  apply List.length_filter_lt_length_iff_exists.mpr
  exact ⟨id, (List.mem_filter.mp member).1, by simpa using member⟩

/-- Kahn's algorithm, from `level` on: a level is everything that is ready then. It ends with
what is in a cycle, or behind one. -/
def place (levels : Table ContributionRef Nat) (remaining : List ContributionRef) (level : Nat) :
    Table ContributionRef Nat × List ContributionRef :=
  if some' : ready edges levels remaining = [] then (levels, remaining)
  else
    place ((ready edges levels remaining).foldl (fun levels id => levels.insert id level) levels)
      (waiting edges levels remaining) (level + 1)
termination_by remaining.length
decreasing_by exact waiting_shorter edges some'

variable (remaining : List ContributionRef)

/-- Follows predecessors until a node repeats: the path, and the cycle that the repeat closes.
`fuel` bounds the walk. -/
def follow : Nat → List ContributionRef → ContributionRef → List ContributionRef × Option (List ContributionRef)
  | 0, path, _ => (path, none)
  | fuel + 1, path, at' =>
    match (predecessors edges at').find? (· ∈ remaining) with
    | none => (path, none)
    | some next =>
      if next ∈ path then (path, some (path.drop (path.idxOf next)))
      else follow fuel (path ++ [next]) next

/-- The cycle from its smallest member on. -/
def fromSmallest (cycle : List ContributionRef) : List ContributionRef :=
  cycle.rotate (cycle.min?.elim 0 fun smallest => cycle.idxOf smallest)

def walkFrom (sofar : List (List ContributionRef) × List ContributionRef) (start : ContributionRef) :
    List (List ContributionRef) × List ContributionRef :=
  if start ∈ sofar.2 then sofar
  else
    let (path, cycle) := follow edges remaining remaining.length [start] start
    let found := cycle.elim sofar.1 fun cycle =>
      if fromSmallest cycle ∈ sofar.1 then sofar.1 else sofar.1 ++ [fromSmallest cycle]
    (found, sofar.2 ++ path)

/-- The cycles among `remaining`, each from its smallest member. -/
def cycles : List (List ContributionRef) := (remaining.foldl (walkFrom edges remaining) ([], [])).1

end

namespace Order

def compile (nodes : List Node) (consumers : List String) : Except (List OrderError) Order :=
  let known := sortedSet (nodes.map (·.id))
  let (edges, errors) := nodes.foldl (addNode known consumers) ([], [])
  let (levels, remaining) := place edges [] known 0
  let errors := errors ++ (if remaining = [] then [] else (cycles edges remaining).map .cycle)
  if errors = [] then .ok { levels, after := nodes.foldl (fun after node => after.insert node.id node.after) [] }
  else .error errors

def usizeMax : Nat := 18446744073709551615

def level (order : Order) (id : ContributionRef) : Option Nat := order.levels.get id

/-- By level, then by ref. -/
def runsBy (order : Order) (a b : ContributionRef) : Prop :=
  toLex ((order.level a).getD usizeMax, a) ≤ toLex ((order.level b).getD usizeMax, b)

instance (order : Order) : DecidableRel order.runsBy := fun _ _ => inferInstanceAs (Decidable (_ ≤ _))

/-- `ids`, in the order they run. -/
def sorted (order : Order) (ids : List ContributionRef) : List ContributionRef := ids.insertionSort order.runsBy

end Order

end Oxplow.Extensions
