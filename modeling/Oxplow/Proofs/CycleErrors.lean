import Oxplow.Proofs.ContributionOrder

/-! The cycles that `compile` reports: each is one and none comes twice, but a contribution can be in
a cycle and in none that is reported. -/

namespace Oxplow.Proofs.CycleErrors
open Extensions Jobs Library Relation
open Lassos ContributionOrder

/-! ## The graph -/

/-- The `after:` of a contribution. Of two nodes with one id the last counts. -/
def afterOf (nodes : List Node) (id : ContributionRef) : List After := ((nodes.reverse.find? (·.id == id)).map (·.after)).getD []

/-- `a` directly runs after `b`. -/
def WaitsOn (nodes : List Node) (a b : ContributionRef) : Prop := .contribution b ∈ afterOf nodes a ∧ b ∈ nodes.map (·.id)

def OnCycle (nodes : List Node) (id : ContributionRef) : Prop := TransGen (WaitsOn nodes) id id

/-- It waits, over any others, on a contribution that waits on itself. -/
def LeadsToCycle (nodes : List Node) (id : ContributionRef) : Prop :=
  ∃ last, ReflTransGen (WaitsOn nodes) id last ∧ OnCycle nodes last

/-- `b` is the first that `a` names of those that lead to a cycle. -/
def FirstBlocked (nodes : List Node) (a b : ContributionRef) : Prop :=
  ∃ before rest, afterOf nodes a = before ++ .contribution b :: rest ∧ LeadsToCycle nodes b ∧
    ∀ other, .contribution other ∈ before → ¬ LeadsToCycle nodes other

section
variable (nodes : List Node) (consumers : List String)

theorem predecessors_eq (id : ContributionRef) :
    predecessors (edgesOf nodes consumers) id = targetPreds (nodeIds nodes) (afterOf nodes id) := by
  have found : Table.get ((nodes.map fun node => (node.id, targetPreds (nodeIds nodes) node.after)).foldl
      (fun (table : Edges) entry => table.insert entry.1 entry.2) []) id =
      (nodes.reverse.find? (·.id == id)).map fun node => targetPreds (nodeIds nodes) node.after := by
    generalize nodeIds nodes = known
    induction nodes using List.reverseRecOn with
    | nil => rfl
    | append_singleton nodes node ih =>
      rw [List.map_append, List.foldl_append, List.map_singleton, List.foldl_cons, List.foldl_nil, Table.get_insert, ih,
        List.reverse_append, List.reverse_singleton, List.singleton_append, List.find?_cons]
      by_cases same : id = node.id
      · simp [same]
      · have differ : (node.id == id) = false := by simpa using fun equal => same equal.symm
        simp [same, differ]
  rw [predecessors, edgesOf, addNode_edges, found, afterOf]
  cases nodes.reverse.find? (·.id == id) with
  | none => rfl
  | some node => rfl

variable {a b : ContributionRef}

theorem mem_predecessors_iff : b ∈ predecessors (edgesOf nodes consumers) a ↔ WaitsOn nodes a b := by
  rw [predecessors_eq, mem_targetPreds, nodeIds, mem_sortedSet]
  exact Iff.rfl

theorem waits_known (waits : WaitsOn nodes a b) : a ∈ nodes.map (·.id) := by
  have named := waits.1
  unfold afterOf at named
  cases found : nodes.reverse.find? (·.id == a) with
  | none => simp [found] at named
  | some node =>
    have same := List.find?_some found
    exact List.mem_map.mpr ⟨node, List.mem_reverse.mp (List.mem_of_find?_eq_some found), beq_iff_eq.mp same⟩

theorem leads_known {id : ContributionRef} (leads : LeadsToCycle nodes id) : id ∈ nodes.map (·.id) := by
  obtain ⟨last, reach, loop⟩ := leads
  rcases ReflTransGen.cases_head reach with rfl | ⟨next, waits, _⟩
  · obtain ⟨next, waits, _⟩ := TransGen.head'_iff.mp loop
    exact waits_known nodes waits
  · exact waits_known nodes waits

/-! ## What is left -/

/-- Where the walk goes: to the first predecessor that is left. -/
def firstLeft (edges : Edges) (remaining : List ContributionRef) (id : ContributionRef) : Option ContributionRef :=
  (predecessors edges id).find? (· ∈ remaining)

theorem left_stuck : ∀ id ∈ (placedLevels nodes consumers).2, ∃ p ∈ (placedLevels nodes consumers).2,
    p ∈ predecessors (edgesOf nodes consumers) id := by
  obtain ⟨last, placed, none⟩ := place_placed (Placed.start (edgesOf nodes consumers) (nodeIds nodes))
  apply placed.stuck _ none
  intro id _ p before
  exact mem_sortedSet.mpr ((mem_predecessors_iff nodes consumers).mp before).2

/-- What Kahn's rounds leave is what leads to a cycle. -/
theorem left_iff (id : ContributionRef) : id ∈ (placedLevels nodes consumers).2 ↔ LeadsToCycle nodes id := by
  obtain ⟨last, placed, none⟩ := place_placed (Placed.start (edgesOf nodes consumers) (nodeIds nodes))
  have stuck := left_stuck nodes consumers
  constructor
  · intro left
    classical
    let reached := (placedLevels nodes consumers).2.filter fun other => ReflTransGen (WaitsOn nodes) id other
    have some' : reached ≠ [] := List.ne_nil_of_mem (List.mem_filter.mpr ⟨left, by simpa using ReflTransGen.refl⟩)
    have onward : ∀ a ∈ reached, ∃ b ∈ reached, WaitsOn nodes a b ∧ ReflTransGen (WaitsOn nodes) id a := by
      intro a inside
      obtain ⟨left, reach⟩ := List.mem_filter.mp inside
      have reach : ReflTransGen (WaitsOn nodes) id a := by simpa using reach
      obtain ⟨b, left', before⟩ := stuck a left
      have waits := (mem_predecessors_iff nodes consumers).mp before
      exact ⟨b, List.mem_filter.mpr ⟨left', by simpa using reach.tail waits⟩, waits, reach⟩
    obtain ⟨last, loop⟩ := Levels.exists_cycle some' onward
    obtain ⟨_, step, _⟩ := TransGen.head'_iff.mp loop
    exact ⟨last, step.2, TransGen.mono (fun _ _ waits => And.left waits) last last loop⟩
  · rintro ⟨last, reach, loop⟩
    by_contra placed_
    have key : ∀ {a}, a ∈ nodes.map (·.id) → a ∉ (placedLevels nodes consumers).2 →
        ∃ own, (placedLevels nodes consumers).1.get a = some own := by
      intro a known gone
      exact containsKey_iff.mp ((placed.splits a).mpr ⟨mem_sortedSet.mpr known, gone⟩)
    have down : ∀ {a b}, WaitsOn nodes a b → a ∉ (placedLevels nodes consumers).2 →
        b ∉ (placedLevels nodes consumers).2 ∧
          ((placedLevels nodes consumers).1.get b).getD 0 < ((placedLevels nodes consumers).1.get a).getD 0 := by
      intro a b waits gone
      obtain ⟨own, found⟩ := key (waits_known nodes waits) gone
      obtain ⟨lower, below, less⟩ := placed.descends a own found b ((mem_predecessors_iff nodes consumers).mpr waits)
      refine ⟨((placed.splits b).mp (containsKey_iff.mpr ⟨lower, below⟩)).2, ?_⟩
      have below' : (placedLevels nodes consumers).1.get b = some lower := below
      rw [found, below']
      exact less
    have gone : last ∉ (placedLevels nodes consumers).2 := by
      clear loop
      induction reach with
      | refl => exact placed_
      | tail _ waits ih => exact (down waits ih).1
    have descends : ∀ {b}, TransGen (WaitsOn nodes) last b → b ∉ (placedLevels nodes consumers).2 ∧
        ((placedLevels nodes consumers).1.get b).getD 0 < ((placedLevels nodes consumers).1.get last).getD 0 := by
      intro b path
      induction path with
      | single waits => exact down waits gone
      | tail _ waits ih =>
        obtain ⟨gone', less⟩ := down waits ih.1
        exact ⟨gone', Nat.lt_trans less ih.2⟩
    exact Nat.lt_irrefl _ (descends loop).2

theorem goes_iff : Goes (firstLeft (edgesOf nodes consumers) (placedLevels nodes consumers).2) a b ↔ FirstBlocked nodes a b := by
  rw [Goes, firstLeft, predecessors_eq, List.find?_eq_some_iff_append]
  constructor
  · rintro ⟨left, skipped, passed, split, unblocked⟩
    obtain ⟨before, rest, after, first, second⟩ := List.filterMap_eq_append_iff.mp split
    obtain ⟨before', target, rest', rest_, quiet, names, _⟩ := List.filterMap_eq_cons_iff.mp second
    obtain rfl : target = .contribution b := by
      cases target with
      | contribution other =>
        dsimp only at names
        split at names
        · rw [Option.some.inj names]
        · cases names
      | consumer name => cases names
    refine ⟨before ++ before', rest', ?_, (left_iff nodes consumers b).mp (by simpa using left), ?_⟩
    · rw [after, rest_, List.append_assoc]
    · intro other named leads
      have known : other ∈ nodeIds nodes := mem_sortedSet.mpr (leads_known nodes leads)
      rcases List.mem_append.mp named with named | named
      · have inside : other ∈ skipped := by
          rw [← first]
          exact mem_targetPreds.mpr ⟨named, known⟩
        have out := unblocked other inside
        simp [(left_iff nodes consumers other).mpr leads] at out
      · have out := quiet _ named
        simp [known] at out
  · rintro ⟨before, rest, split, leads, unblocked⟩
    have known : b ∈ nodeIds nodes := mem_sortedSet.mpr (leads_known nodes leads)
    refine ⟨by simpa using (left_iff nodes consumers b).mpr leads, targetPreds (nodeIds nodes) before,
      targetPreds (nodeIds nodes) rest, ?_, ?_⟩
    · rw [split, targetPreds, targetPreds, targetPreds, List.filterMap_append, List.filterMap_cons]
      simp [known]
    · intro other inside
      have named := (mem_targetPreds.mp inside).1
      have out : other ∉ (placedLevels nodes consumers).2 := by
        intro left
        exact unblocked other named ((left_iff nodes consumers other).mp left)
      simpa using out

end

/-! ## The walk -/

section
variable {edges : Edges} {remaining : List ContributionRef}

variable {cycle : List ContributionRef}

/-- A walk that closes leaves a path into the cycle it gives. -/
theorem follow_lasso (fuel : Nat) (before : List ContributionRef) (at' : ContributionRef) (once : (before ++ [at']).Nodup)
    (goes : (before ++ [at']).IsChain (Goes (firstLeft edges remaining)))
    (closed : (follow edges remaining fuel (before ++ [at']) at').2 = some cycle) :
    ∃ lead a tail, (follow edges remaining fuel (before ++ [at']) at').1 = lead ++ a :: tail ∧ cycle = a :: tail ∧
      Lasso (firstLeft edges remaining) lead a tail ∧ before ++ [at'] ⊆ lead ++ a :: tail := by
  induction fuel generalizing before at' with
  | zero => cases closed
  | succ fuel ih =>
    rw [follow] at closed ⊢
    cases found : (predecessors edges at').find? (· ∈ remaining) with
    | none =>
      rw [found] at closed
      cases closed
    | some next =>
      have step : Goes (firstLeft edges remaining) at' next := found
      have onward : (before ++ [at'] ++ [next]).IsChain (Goes (firstLeft edges remaining)) := by
        refine List.isChain_append.mpr ⟨goes, List.isChain_singleton next, ?_⟩
        intro last isLast first isFirst
        obtain rfl : at' = last := by simpa using isLast
        obtain rfl : next = first := by simpa using isFirst
        exact step
      rw [found] at closed
      dsimp only at closed ⊢
      by_cases again : next ∈ before ++ [at']
      · rw [if_pos again] at closed ⊢
        obtain ⟨lead, tail, split, absent⟩ := List.eq_append_cons_of_mem again
        have here : (before ++ [at']).drop ((before ++ [at']).idxOf next) = next :: tail := by
          rw [split, List.idxOf_append_of_notMem absent, List.idxOf_cons_self, Nat.add_zero, List.drop_left]
        rw [Option.some.injEq, here] at closed
        rw [split] at once onward
        exact ⟨lead, next, tail, split, closed.symm, ⟨once, onward⟩, split ▸ List.Subset.refl _⟩
      · rw [if_neg again] at closed ⊢
        have once' : (before ++ [at'] ++ [next]).Nodup := by
          rw [List.nodup_append]
          refine ⟨once, List.nodup_singleton next, ?_⟩
          intro a inside b single same
          exact again (List.mem_singleton.mp single ▸ same ▸ inside)
        obtain ⟨lead, a, tail, path, cycle_, lasso, covers⟩ := ih (before ++ [at']) next once' onward closed
        exact ⟨lead, a, tail, path, cycle_, lasso, fun id member => covers (List.mem_append_left _ member)⟩

/-! ### From the smallest member on -/

theorem fromSmallest_rotated (cycle : List ContributionRef) : List.IsRotated cycle (fromSmallest cycle) := ⟨_, rfl⟩

theorem fromSmallest_least (some' : cycle ≠ []) :
    ∃ first, (fromSmallest cycle).head? = some first ∧ ∀ id ∈ fromSmallest cycle, first ≤ id := by
  cases least : cycle.min? with
  | none => exact absurd (List.min?_eq_none_iff.mp least) some'
  | some first =>
    obtain ⟨member, below⟩ := List.min?_eq_some_iff.mp least
    refine ⟨first, ?_, ?_⟩
    · rw [fromSmallest, least, Option.elim_some, List.head?_rotate (List.idxOf_lt_length_of_mem member),
        List.getElem?_idxOf member]
    · intro id inside
      exact below id ((fromSmallest_rotated cycle).mem_iff.mpr inside)

theorem same_of_rotated {other : List ContributionRef} (once : cycle.Nodup) (rotated : List.IsRotated cycle other)
    {first first' : ContributionRef} (head : cycle.head? = some first) (least : ∀ id ∈ cycle, first ≤ id)
    (head' : other.head? = some first') (least' : ∀ id ∈ other, first' ≤ id) : cycle = other := by
  obtain ⟨n, small, rfl⟩ := List.isRotated_iff_mod.mp rotated
  rcases Nat.lt_or_eq_of_le small with short | whole
  · rw [List.head?_rotate short] at head'
    have same : first = first' := by
      apply le_antisymm
      · exact least first' (List.mem_of_getElem? head')
      · exact least' first (List.mem_rotate.mpr (List.mem_of_head? head))
    rw [List.head?_eq_getElem?] at head
    have zero : n = 0 := (List.getElem?_inj short once).mp (by rw [head', head, same])
    rw [zero, List.rotate_zero]
  · rw [whole, List.rotate_length]

/-! ### The fold over what is left -/

/-- What the walks so far have found: loops of the walk, each once, and with each one seen the loop that it leads to. -/
structure Found (edges : Edges) (remaining : List ContributionRef) (sofar : List (List ContributionRef) × List ContributionRef) :
    Prop where
  loops : ∀ cycle ∈ sofar.1, cycle.Nodup ∧ Cycle.Chain (Goes (firstLeft edges remaining)) (cycle : Cycle ContributionRef) ∧
    ∃ first, cycle.head? = some first ∧ ∀ id ∈ cycle, first ≤ id
  once : sofar.1.Pairwise fun cycle other => ¬ List.IsRotated cycle other
  told : ∀ id ∈ sofar.2, ∀ last, ReflTransGen (Goes (firstLeft edges remaining)) id last →
    TransGen (Goes (firstLeft edges remaining)) last last → ∃ cycle ∈ sofar.1, last ∈ cycle

theorem walkFrom_found {sofar : List (List ContributionRef) × List ContributionRef} (found : Found edges remaining sofar)
    {start : ContributionRef} (closes : ∃ cycle, (follow edges remaining remaining.length [start] start).2 = some cycle) :
    Found edges remaining (walkFrom edges remaining sofar start) ∧ start ∈ (walkFrom edges remaining sofar start).2 ∧
      sofar.2 ⊆ (walkFrom edges remaining sofar start).2 := by
  rw [walkFrom]
  by_cases seen : start ∈ sofar.2
  · rw [if_pos seen]
    exact ⟨found, seen, List.Subset.refl _⟩
  · rw [if_neg seen]
    obtain ⟨cycle, closed⟩ := closes
    obtain ⟨lead, a, tail, path, rfl, lasso, covers⟩ :=
      follow_lasso remaining.length [] start (List.nodup_singleton start) (List.isChain_singleton start) closed
    rw [List.nil_append] at path covers
    generalize follow edges remaining remaining.length [start] start = out at closed path
    obtain ⟨path_, cycle_⟩ := out
    cases path
    cases closed
    have rotated := fromSmallest_rotated (a :: tail)
    obtain ⟨first, head, least⟩ := fromSmallest_least (List.cons_ne_nil a tail)
    have once : (fromSmallest (a :: tail)).Nodup := rotated.nodup_iff.mp lasso.once.of_append_right
    have loop : Cycle.Chain (Goes (firstLeft edges remaining)) (fromSmallest (a :: tail) : Cycle ContributionRef) := by
      rw [← Cycle.coe_eq_coe.mpr rotated]
      exact lasso.loop
    dsimp only [Option.elim_some]
    have there : start ∈ lead ++ a :: tail := covers (by simp)
    -- Whether the loop was found before or not, it is there after.
    have with_ : ∀ cycles : List (List ContributionRef), fromSmallest (a :: tail) ∈ cycles → sofar.1 ⊆ cycles →
        ∀ id ∈ sofar.2 ++ (lead ++ a :: tail), ∀ last, ReflTransGen (Goes (firstLeft edges remaining)) id last →
          TransGen (Goes (firstLeft edges remaining)) last last → ∃ cycle ∈ cycles, last ∈ cycle := by
      intro cycles inside before id member last reach comes
      rcases List.mem_append.mp member with early | now
      · obtain ⟨cycle, old, here⟩ := found.told id early last reach comes
        exact ⟨cycle, before old, here⟩
      · have onLoop := lasso.returns (lasso.reach now reach) comes
        exact ⟨_, inside, rotated.mem_iff.mp onLoop⟩
    refine ⟨?_, List.mem_append_right _ there, List.subset_append_left _ _⟩
    by_cases again : fromSmallest (a :: tail) ∈ sofar.1
    · rw [if_pos again]
      exact ⟨found.loops, found.once, with_ _ again (List.Subset.refl _)⟩
    · rw [if_neg again]
      refine ⟨?_, ?_, with_ _ (by simp) (List.subset_append_left _ _)⟩
      · intro cycle member
        rcases List.mem_append.mp member with old | new
        · exact found.loops cycle old
        · rw [List.mem_singleton.mp new]
          exact ⟨once, loop, first, head, least⟩
      · refine List.pairwise_append.mpr ⟨found.once, List.pairwise_singleton _ _, ?_⟩
        intro cycle old other new same
        rw [List.mem_singleton.mp new] at same
        obtain ⟨once', _, first', head', least'⟩ := found.loops cycle old
        exact again (same_of_rotated once' same head' least' head least ▸ old)

theorem cycles_found (closes : ∀ start ∈ remaining, ∃ cycle, (follow edges remaining remaining.length [start] start).2 = some cycle) :
    ∃ seen, Found edges remaining (cycles edges remaining, seen) ∧ remaining ⊆ seen := by
  have walks : ∀ (starts : List ContributionRef) (sofar : List (List ContributionRef) × List ContributionRef), starts ⊆ remaining →
      Found edges remaining sofar → Found edges remaining (starts.foldl (walkFrom edges remaining) sofar) ∧
        starts ⊆ (starts.foldl (walkFrom edges remaining) sofar).2 ∧ sofar.2 ⊆ (starts.foldl (walkFrom edges remaining) sofar).2 := by
    intro starts
    induction starts with
    | nil => exact fun sofar _ found => ⟨found, List.nil_subset _, List.Subset.refl _⟩
    | cons start starts ih =>
      intro sofar inside found
      obtain ⟨next, own, before⟩ := walkFrom_found found (closes start (inside List.mem_cons_self))
      obtain ⟨last, rest, kept⟩ := ih _ (fun id member => inside (List.mem_cons_of_mem _ member)) next
      refine ⟨last, ?_, fun id member => kept (before member)⟩
      intro id member
      rcases List.mem_cons.mp member with rfl | member
      · exact kept own
      · exact rest member
  obtain ⟨found, all, _⟩ := walks remaining ([], []) (List.Subset.refl _)
    ⟨fun cycle member => absurd member List.not_mem_nil, List.Pairwise.nil, fun id member => absurd member List.not_mem_nil⟩
  exact ⟨_, found, all⟩

end

/-! ## What is reported -/

def reportedIn (errors : List OrderError) : List (List ContributionRef) :=
  errors.filterMap fun
    | .unknown _ _ => none
    | .cycle cycle => some cycle

theorem reportedIn_unknown (nodes : List Node) (consumers : List String) : reportedIn (unknownErrors nodes consumers) = [] := by
  rw [reportedIn, List.filterMap_eq_nil_iff]
  intro error member
  obtain ⟨node, _, inside⟩ := List.mem_flatMap.mp member
  obtain ⟨target, _, rfl⟩ := List.mem_map.mp inside
  rfl

theorem reportedIn_compile {nodes : List Node} {consumers : List String} {errors : List OrderError}
    (refused : Order.compile nodes consumers = .error errors) :
    reportedIn errors = cycles (edgesOf nodes consumers) (placedLevels nodes consumers).2 := by
  rw [compile_eq] at refused
  split at refused
  · cases refused
  · cases refused
    have both : reportedIn (unknownErrors nodes consumers ++ cycleErrors nodes consumers) =
        reportedIn (unknownErrors nodes consumers) ++ reportedIn (cycleErrors nodes consumers) := List.filterMap_append
    rw [both, reportedIn_unknown, List.nil_append, cycleErrors]
    by_cases placed : (placedLevels nodes consumers).2 = []
    · rw [if_pos placed, placed]
      rfl
    · rw [if_neg placed, reportedIn, List.filterMap_map]
      exact List.filterMap_some

/-- Of the cycles that are reported each is one and none comes twice, and every walk that looks for them closes. A contribution
that is in a cycle is in a reported one exactly where it comes back to itself by always going to the first it names of those that
lead to a cycle. -/
theorem reported_cycles {nodes : List Node} {consumers : List String} {errors : List OrderError}
    (refused : Order.compile nodes consumers = .error errors) :
    ((∀ cycle ∈ reportedIn errors, cycle ≠ [] ∧ Cycle.Chain (WaitsOn nodes) (cycle : Cycle ContributionRef)) ∧
      (reportedIn errors).Pairwise (fun cycle other => ¬ List.IsRotated cycle other) ∧
      ∀ start ∈ (placedLevels nodes consumers).2, ((follow (edgesOf nodes consumers) (placedLevels nodes consumers).2
        (placedLevels nodes consumers).2.length [start] start).2).isSome = true) ∧
    ((∀ id, OnCycle nodes id → ∃ cycle ∈ reportedIn errors, id ∈ cycle) ↔
      ∀ id, OnCycle nodes id → TransGen (FirstBlocked nodes) id id) := by
  have closes : ∀ start ∈ (placedLevels nodes consumers).2, ∃ cycle, (follow (edgesOf nodes consumers)
      (placedLevels nodes consumers).2 (placedLevels nodes consumers).2.length [start] start).2 = some cycle := by
    intro start left
    apply follow_closes (left_stuck nodes consumers) _ [start] start (List.nodup_singleton start) _ left
    · rw [List.length_singleton]
      omega
    · exact fun id member => List.mem_singleton.mp member ▸ left
  obtain ⟨seen, found, all⟩ := cycles_found closes
  rw [reportedIn_compile refused]
  have goes : Goes (firstLeft (edgesOf nodes consumers) (placedLevels nodes consumers).2) = FirstBlocked nodes := by
    funext a b
    exact propext (goes_iff nodes consumers)
  obtain ⟨loops, once, told⟩ := found
  rw [goes] at loops told
  refine ⟨⟨?_, once, fun start left => Option.isSome_iff_exists.mpr (closes start left)⟩, ?_⟩
  · intro cycle member
    obtain ⟨_, loop, first, head, _⟩ := loops cycle member
    refine ⟨?_, loop.imp ?_⟩
    · rintro rfl
      cases head
    · rintro a b ⟨before, rest, names, leads, _⟩
      exact ⟨names ▸ List.mem_append_right _ List.mem_cons_self, leads_known nodes leads⟩
  · constructor
    · intro complete id onCycle
      obtain ⟨cycle, member, inside⟩ := complete id onCycle
      have loop := (loops cycle member).2.1
      rw [← goes] at loop ⊢
      exact loop_returns loop inside
    · intro returns id onCycle
      have left := (left_iff nodes consumers id).mpr ⟨id, .refl, onCycle⟩
      exact told id (all left) id .refl (returns id onCycle)

/-! ### Two cycles that share a member -/

def effectRef (name : String) : ContributionRef := ⟨.effect, some "acme", name⟩

/-- `a` and `b` wait on each other. -/
def twoWaiting : List Node :=
  [⟨effectRef "a", [.contribution (effectRef "b")]⟩, ⟨effectRef "b", [.contribution (effectRef "a")]⟩]

/-- And so do `a` and `c`. -/
def threeWaiting : List Node :=
  [⟨effectRef "a", [.contribution (effectRef "b"), .contribution (effectRef "c")]⟩,
    ⟨effectRef "b", [.contribution (effectRef "a")]⟩, ⟨effectRef "c", [.contribution (effectRef "a")]⟩]

/-- With no ready node the one level is empty, and the walks report what they find in all. -/
theorem refused_of_stuck (nodes : List Node) (cycle : List ContributionRef)
    (stuck : ready (edgesOf nodes []) [] (nodeIds nodes) = []) (some' : nodeIds nodes ≠ []) (declared : unknownErrors nodes [] = [])
    (found : cycles (edgesOf nodes []) (nodeIds nodes) = [cycle]) : Order.compile nodes [] = .error [.cycle cycle] := by
  have placed : placedLevels nodes [] = ([], nodeIds nodes) := by
    rw [placedLevels, place, dif_pos stuck]
  rw [compile_eq, declared, cycleErrors, placed, if_neg some', found]
  rfl

theorem twoWaiting_refused : Order.compile twoWaiting [] = .error [.cycle [effectRef "a", effectRef "b"]] :=
  refused_of_stuck twoWaiting [effectRef "a", effectRef "b"] (by decide) (by decide) rfl (by decide)

theorem reported_cycles_two :
    Order.compile twoWaiting [] = .error [.cycle [effectRef "a", effectRef "b"]] ∧
      ((∀ id, OnCycle twoWaiting id → ∃ cycle ∈ reportedIn [.cycle [effectRef "a", effectRef "b"]], id ∈ cycle) ↔
        ∀ id, OnCycle twoWaiting id → TransGen (FirstBlocked twoWaiting) id id) :=
  ⟨twoWaiting_refused, (reported_cycles twoWaiting_refused).2⟩

/-- `c` waits on itself over `a`, and no reported cycle has it. -/
theorem cycle_unreported :
    Order.compile threeWaiting [] = .error [.cycle [effectRef "a", effectRef "b"]] ∧ OnCycle threeWaiting (effectRef "c") ∧
      ¬ ∃ cycle ∈ reportedIn [.cycle [effectRef "a", effectRef "b"]], effectRef "c" ∈ cycle := by
  refine ⟨refused_of_stuck threeWaiting [effectRef "a", effectRef "b"] (by decide) (by decide) rfl (by decide), ?_, by decide⟩
  have out : WaitsOn threeWaiting (effectRef "c") (effectRef "a") := ⟨by decide, by decide⟩
  have back : WaitsOn threeWaiting (effectRef "a") (effectRef "c") := ⟨by decide, by decide⟩
  exact (TransGen.single out).tail back

end Oxplow.Proofs.CycleErrors
