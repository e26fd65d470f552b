import Oxplow.Extensions.Ordering
import Oxplow.Library.Levels

/-! The compiled order of contributions: it is there exactly where some order can be, and
each contribution comes after all it runs after. -/

namespace Oxplow.Proofs.ContributionOrder
open Extensions Jobs Library Relation

/-! ## What is asked for -/

/-- `a` names `b` in its `after:`. -/
def RunsAfter (nodes : List Node) (a b : ContributionRef) : Prop := ∃ node ∈ nodes, node.id = a ∧ .contribution b ∈ node.after

def Declared (nodes : List Node) (consumers : List String) : After → Prop
  | .contribution ref => ref ∈ nodes.map (·.id)
  | .consumer name => name ∈ consumers

/-! ## The edges -/

variable {id : ContributionRef}

theorem mem_sortedSet {ids : List ContributionRef} : id ∈ sortedSet ids ↔ id ∈ ids := by
  rw [sortedSet, List.mem_insertionSort, List.mem_dedup]

theorem mem_targetPreds {known : List ContributionRef} {after : List After} {ref : ContributionRef} :
    ref ∈ targetPreds known after ↔ .contribution ref ∈ after ∧ ref ∈ known := by
  rw [targetPreds, List.mem_filterMap]
  constructor
  · rintro ⟨target, member, names⟩
    cases target with
    | contribution other =>
      change (if other ∈ known then some other else none) = some ref at names
      by_cases inside : other ∈ known
      · rw [if_pos inside] at names
        cases names
        exact ⟨member, inside⟩
      · rw [if_neg inside] at names
        cases names
    | consumer name => cases names
  · rintro ⟨member, inside⟩
    exact ⟨_, member, if_pos inside⟩

variable {nodes : List Node}

theorem unknownTargets_nil {consumers : List String} {after : List After} :
    unknownTargets (sortedSet (nodes.map (·.id))) consumers after = [] ↔ ∀ target ∈ after, Declared nodes consumers target := by
  rw [unknownTargets, List.filter_eq_nil_iff]
  apply forall_congr'
  intro target
  apply imp_congr_right
  intro _
  cases target with
  | contribution ref => simp [Declared, mem_sortedSet]
  | consumer name => simp [Declared]

section
variable (known : List ContributionRef) (consumers : List String)

theorem addNode_edges (nodes : List Node) (sofar : Edges × List OrderError) :
    (nodes.foldl (addNode known consumers) sofar).1 =
      (nodes.map fun node => (node.id, targetPreds known node.after)).foldl (fun table entry => table.insert entry.1 entry.2) sofar.1 := by
  induction nodes generalizing sofar with
  | nil => rfl
  | cons node nodes ih => exact ih _

theorem addNode_errors (nodes : List Node) (sofar : Edges × List OrderError) :
    (nodes.foldl (addNode known consumers) sofar).2 =
      sofar.2 ++ nodes.flatMap fun node => (unknownTargets known consumers node.after).map (.unknown node.id) := by
  induction nodes generalizing sofar with
  | nil => exact (List.append_nil _).symm
  | cons node nodes ih =>
    rw [List.foldl_cons, ih, addNode, List.flatMap_cons, List.append_assoc]

end

/-- The predecessors of a node are the known contributions it names. -/
theorem mem_predecessors (distinct : (nodes.map (·.id)).Nodup) (consumers : List String) {a b : ContributionRef}
    (inside : a ∈ nodes.map (·.id)) :
    b ∈ predecessors (nodes.foldl (addNode (sortedSet (nodes.map (·.id))) consumers) ([], [])).1 a ↔
      RunsAfter nodes a b ∧ b ∈ nodes.map (·.id) := by
  obtain ⟨node, member, rfl⟩ := List.mem_map.mp inside
  have keys : ((nodes.map fun node => (node.id, targetPreds (sortedSet (nodes.map (·.id))) node.after)).map (·.1)).Nodup := by
    rw [List.map_map]
    exact distinct
  have found := Table.get_foldl_insert_of_mem keys (List.mem_map_of_mem member) []
  rw [predecessors, addNode_edges, found, Option.getD_some, mem_targetPreds, mem_sortedSet]
  apply and_congr_left
  intro _
  constructor
  · exact fun names => ⟨node, member, rfl, names⟩
  · rintro ⟨other, member', same, names⟩
    have one : other = node := List.inj_on_of_nodup_map distinct member' member same
    exact one ▸ names

/-! ## The rounds -/

theorem get_foldl_level (level : Nat) (ids : List ContributionRef) (levels : Table ContributionRef Nat) (id : ContributionRef) :
    (ids.foldl (fun (levels : Table ContributionRef Nat) id => levels.insert id level) levels).get id =
      if id ∈ ids then some level else levels.get id := by
  induction ids generalizing levels with
  | nil => rfl
  | cons first ids ih =>
    rw [List.foldl_cons, ih, Table.get_insert]
    by_cases later : id ∈ ids
    · simp [later]
    · by_cases here : id = first <;> simp [later, here]

/-- What every round keeps: what is placed has each predecessor on a lower level. -/
structure Placed (edges : Edges) (known : List ContributionRef) (levels : Table ContributionRef Nat) (remaining : List ContributionRef)
    (level : Nat) : Prop where
  splits : ∀ id, levels.containsKey id = true ↔ id ∈ known ∧ id ∉ remaining
  inside : ∀ id ∈ remaining, id ∈ known
  below : ∀ id own, levels.get id = some own → own < level
  descends : ∀ id own, levels.get id = some own → ∀ p ∈ predecessors edges id, ∃ lower, levels.get p = some lower ∧ lower < own
  bottom : ∀ id, levels.get id = some 0 → predecessors edges id = []
  roots : 0 < level → ∀ id, predecessors edges id = [] → id ∉ remaining
  rooted : ∀ id own, levels.get id = some own → predecessors edges id = [] → own = 0

variable {edges : Edges} {known remaining : List ContributionRef} {levels : Table ContributionRef Nat} {level : Nat}

theorem mem_ready :
    id ∈ ready edges levels remaining ↔ id ∈ remaining ∧ ∀ p ∈ predecessors edges id, levels.containsKey p = true := by
  rw [ready, List.mem_filter, List.all_eq_true]

theorem mem_waiting : id ∈ waiting edges levels remaining ↔ id ∈ remaining ∧ id ∉ ready edges levels remaining := by
  rw [waiting, List.mem_filter, decide_eq_true_eq]

theorem containsKey_iff {levels : Table ContributionRef Nat} :
    levels.containsKey id = true ↔ ∃ own, levels.get id = some own := by
  rw [Table.containsKey, Option.isSome_iff_exists]

theorem Placed.start (edges : Edges) (known : List ContributionRef) : Placed edges known [] known 0 where
  splits := fun id => by simp [Table.containsKey]
  inside := fun _ member => member
  below := fun _ _ found => by cases found
  descends := fun _ _ found => by cases found
  bottom := fun _ found => by cases found
  roots := fun positive => absurd positive (Nat.lt_irrefl 0)
  rooted := fun _ _ found => by cases found

theorem Placed.round (placed : Placed edges known levels remaining level) :
    Placed edges known ((ready edges levels remaining).foldl (fun levels id => levels.insert id level) levels)
      (waiting edges levels remaining) (level + 1) := by
  have get := get_foldl_level level (ready edges levels remaining) levels
  constructor
  · intro id
    rw [Table.containsKey, get, mem_waiting]
    by_cases now : id ∈ ready edges levels remaining
    · have member := (mem_ready.mp now).1
      simp [now, placed.inside id member]
    · rw [if_neg now]
      have split := placed.splits id
      rw [Table.containsKey] at split
      rw [split]
      simp [now]
  · exact fun id member => placed.inside id (mem_waiting.mp member).1
  · intro id own found
    rw [get] at found
    split at found
    · cases found
      exact Nat.lt_succ_self level
    · exact Nat.lt_succ_of_lt (placed.below id own found)
  · intro id own found p member
    rw [get] at found
    have keeps : ∀ lower, levels.get p = some lower → p ∉ ready edges levels remaining := by
      intro lower there again
      have outside := (placed.splits p).mp (containsKey_iff.mpr ⟨lower, there⟩)
      exact outside.2 (mem_ready.mp again).1
    split at found
    · rename_i now
      cases found
      obtain ⟨lower, there⟩ := containsKey_iff.mp ((mem_ready.mp now).2 p member)
      refine ⟨lower, ?_, placed.below p lower there⟩
      rw [get, if_neg (keeps lower there)]
      exact there
    · obtain ⟨lower, there, less⟩ := placed.descends id own found p member
      refine ⟨lower, ?_, less⟩
      rw [get, if_neg (keeps lower there)]
      exact there
  · intro id found
    rw [get] at found
    split at found
    · rename_i now
      cases found
      apply List.eq_nil_iff_forall_not_mem.mpr
      intro p member
      obtain ⟨lower, there⟩ := containsKey_iff.mp ((mem_ready.mp now).2 p member)
      exact absurd (placed.below p lower there) (Nat.not_lt_zero lower)
    · exact placed.bottom id found
  · intro _ id none member
    obtain ⟨member, later⟩ := mem_waiting.mp member
    apply later
    apply mem_ready.mpr
    refine ⟨member, ?_⟩
    rw [none]
    exact fun p inside => absurd inside List.not_mem_nil
  · intro id own found none
    rw [get] at found
    split at found
    · rename_i now
      cases found
      by_contra positive
      exact placed.roots (Nat.pos_of_ne_zero positive) id none (mem_ready.mp now).1
    · exact placed.rooted id own found none

/-- At the end nothing is ready. -/
theorem place_placed (placed : Placed edges known levels remaining level) :
    ∃ last, Placed edges known (place edges levels remaining level).1 (place edges levels remaining level).2 last ∧
      ready edges (place edges levels remaining level).1 (place edges levels remaining level).2 = [] := by
  induction levels, remaining, level using place.induct edges with
  | case1 levels remaining level none =>
    rw [place, dif_pos none]
    exact ⟨level, placed, none⟩
  | case2 levels remaining level some' ih =>
    rw [place, dif_neg some']
    exact ih placed.round

/-! ## What is left -/

/-- What is left at the end has a predecessor that is left. -/
theorem Placed.stuck (placed : Placed edges known levels remaining level)
    (closed : ∀ id ∈ known, ∀ p ∈ predecessors edges id, p ∈ known) (none : ready edges levels remaining = []) :
    ∀ id ∈ remaining, ∃ p ∈ remaining, p ∈ predecessors edges id := by
  intro id member
  by_contra out
  have now : id ∈ ready edges levels remaining := by
    apply mem_ready.mpr
    refine ⟨member, ?_⟩
    intro p before
    apply (placed.splits p).mpr
    refine ⟨closed id (placed.inside id member) p before, ?_⟩
    exact fun left => out ⟨p, left, before⟩
  rw [none] at now
  cases now

/-- The walk closes a cycle within as many steps as there are nodes left. -/
theorem follow_closes (stuck : ∀ id ∈ remaining, ∃ p ∈ remaining, p ∈ predecessors edges id) (fuel : Nat) :
    ∀ (path : List ContributionRef) (at' : ContributionRef), path.Nodup → (∀ id ∈ path, id ∈ remaining) → at' ∈ remaining →
      remaining.length < path.length + fuel → ∃ cycle, (follow edges remaining fuel path at').2 = some cycle := by
  induction fuel with
  | zero =>
    intro path at' once inside _ short
    have fits : path.length ≤ remaining.length := (once.subperm inside).length_le
    exact absurd short (Nat.not_lt.mpr fits)
  | succ fuel ih =>
    intro path at' once inside here short
    obtain ⟨p, left, before⟩ := stuck at' here
    rw [follow]
    cases found : (predecessors edges at').find? (· ∈ remaining) with
    | none =>
      have absent := List.find?_eq_none.mp found p before
      exact absurd (decide_eq_true left) absent
    | some next =>
      have member : next ∈ remaining := by simpa using List.find?_some found
      by_cases again : next ∈ path
      · refine ⟨path.drop (path.idxOf next), ?_⟩
        simp only [if_pos again]
      · simp only [if_neg again]
        apply ih (path ++ [next]) next
        · exact List.nodup_append.mpr ⟨once, List.nodup_singleton next, by
            intro a inPath b single same
            rw [List.mem_singleton] at single
            exact again (single ▸ same ▸ inPath)⟩
        · intro id inPath
          rcases List.mem_append.mp inPath with old | new
          · exact inside id old
          · exact List.mem_singleton.mp new ▸ member
        · exact member
        · rw [List.length_append, List.length_singleton]
          omega

theorem walkFrom_keeps (edges : Edges) (remaining starts : List ContributionRef)
    (sofar : List (List ContributionRef) × List ContributionRef) (some' : sofar.1 ≠ []) :
    (starts.foldl (walkFrom edges remaining) sofar).1 ≠ [] := by
  induction starts generalizing sofar with
  | nil => exact some'
  | cons start starts ih =>
    apply ih
    rw [walkFrom]
    split
    · exact some'
    · obtain ⟨path, closed⟩ := follow edges remaining remaining.length [start] start
      cases closed with
      | none => exact some'
      | some cycle =>
        change (if fromSmallest cycle ∈ sofar.1 then sofar.1 else sofar.1 ++ [fromSmallest cycle]) ≠ []
        split
        · exact some'
        · simp

/-- Where something is left, a cycle is reported. -/
theorem cycles_reported (stuck : ∀ id ∈ remaining, ∃ p ∈ remaining, p ∈ predecessors edges id) (some' : remaining ≠ []) :
    cycles edges remaining ≠ [] := by
  cases left : remaining with
  | nil => exact absurd left some'
  | cons start rest =>
    rw [left] at stuck
    have here : start ∈ start :: rest := List.mem_cons_self
    obtain ⟨cycle, closes⟩ := follow_closes stuck (start :: rest).length [start] start (List.nodup_singleton start)
      (fun id member => List.mem_singleton.mp member ▸ here) here (by rw [List.length_singleton]; omega)
    rw [cycles, List.foldl_cons]
    apply walkFrom_keeps
    rw [walkFrom, if_neg List.not_mem_nil]
    simp only [closes]
    simp

/-! ## The order -/

/-- What `compile` works out of the nodes: their edges, and where each was placed. -/
def nodeIds (nodes : List Node) : List ContributionRef := sortedSet (nodes.map (·.id))

def edgesOf (nodes : List Node) (consumers : List String) : Edges :=
  (nodes.foldl (addNode (nodeIds nodes) consumers) ([], [])).1

def unknownErrors (nodes : List Node) (consumers : List String) : List OrderError :=
  nodes.flatMap fun node => (unknownTargets (nodeIds nodes) consumers node.after).map (.unknown node.id)

def placedLevels (nodes : List Node) (consumers : List String) : Table ContributionRef Nat × List ContributionRef :=
  place (edgesOf nodes consumers) [] (nodeIds nodes) 0

def cycleErrors (nodes : List Node) (consumers : List String) : List OrderError :=
  if (placedLevels nodes consumers).2 = [] then []
  else (cycles (edgesOf nodes consumers) (placedLevels nodes consumers).2).map .cycle

theorem compile_eq (nodes : List Node) (consumers : List String) :
    Order.compile nodes consumers =
      if unknownErrors nodes consumers ++ cycleErrors nodes consumers = []
      then .ok ⟨(placedLevels nodes consumers).1, nodes.foldl (fun after node => after.insert node.id node.after) []⟩
      else .error (unknownErrors nodes consumers ++ cycleErrors nodes consumers) := by
  have errors := addNode_errors (nodeIds nodes) consumers nodes ([], [])
  rw [List.nil_append] at errors
  rw [unknownErrors, ← errors]
  rfl

theorem unknownErrors_nil {consumers : List String} :
    unknownErrors nodes consumers = [] ↔ ∀ node ∈ nodes, ∀ target ∈ node.after, Declared nodes consumers target := by
  rw [unknownErrors, List.flatMap_eq_nil_iff]
  apply forall_congr'
  intro node
  apply imp_congr_right
  intro _
  rw [List.map_eq_nil_iff]
  exact unknownTargets_nil

section
variable {nodes : List Node} (distinct : (nodes.map (·.id)).Nodup) (consumers : List String)
include distinct

theorem mem_edges {a b : ContributionRef} (inside : a ∈ nodes.map (·.id)) :
    b ∈ predecessors (edgesOf nodes consumers) a ↔ RunsAfter nodes a b ∧ b ∈ nodes.map (·.id) :=
  mem_predecessors distinct consumers inside

theorem placed_stuck : ∀ id ∈ (placedLevels nodes consumers).2, ∃ p ∈ (placedLevels nodes consumers).2,
    p ∈ predecessors (edgesOf nodes consumers) id ∧ RunsAfter nodes id p := by
  obtain ⟨last, placed, none⟩ := place_placed (Placed.start (edgesOf nodes consumers) (nodeIds nodes))
  have edge : ∀ id ∈ nodeIds nodes, ∀ p ∈ predecessors (edgesOf nodes consumers) id, RunsAfter nodes id p ∧ p ∈ nodes.map (·.id) :=
    fun id member p before => (mem_edges distinct consumers (mem_sortedSet.mp member)).mp before
  intro id left
  obtain ⟨p, left', before⟩ := placed.stuck (fun id member p before => mem_sortedSet.mpr (edge id member p before).2) none id left
  exact ⟨p, left', before, (edge id (placed.inside id left) p before).1⟩

/-- Everything is placed exactly where nothing waits on itself. -/
theorem placed_all (declared : ∀ node ∈ nodes, ∀ target ∈ node.after, Declared nodes consumers target) :
    (placedLevels nodes consumers).2 = [] ↔ ∀ id, ¬ TransGen (RunsAfter nodes) id id := by
  obtain ⟨last, placed, none⟩ := place_placed (Placed.start (edgesOf nodes consumers) (nodeIds nodes))
  constructor
  · intro all id loop
    -- The levels go down along every edge.
    have descends : ∀ a b, RunsAfter nodes a b →
        ((placedLevels nodes consumers).1.get b).getD 0 < ((placedLevels nodes consumers).1.get a).getD 0 := by
      rintro a b ⟨node, member, rfl, names⟩
      have inside : node.id ∈ nodes.map (·.id) := List.mem_map_of_mem member
      have known : b ∈ nodes.map (·.id) := declared node member _ names
      have there := (placed.splits node.id).mpr ⟨mem_sortedSet.mpr inside, by
        change node.id ∉ (placedLevels nodes consumers).2
        rw [all]
        exact List.not_mem_nil⟩
      obtain ⟨own, found⟩ := containsKey_iff.mp there
      obtain ⟨lower, before, less⟩ := placed.descends node.id own found b
        ((mem_edges distinct consumers inside).mpr ⟨⟨node, member, rfl, names⟩, known⟩)
      change (((placedLevels nodes consumers).1.get b).getD 0) < _
      rw [show (placedLevels nodes consumers).1.get b = some lower from before,
        show (placedLevels nodes consumers).1.get node.id = some own from found]
      exact less
    exact Nat.lt_irrefl _ (Levels.rank_lt descends loop)
  · intro acyclic
    by_contra some'
    have stuck : ∀ id ∈ (placedLevels nodes consumers).2, ∃ p ∈ (placedLevels nodes consumers).2, RunsAfter nodes id p := by
      intro id left
      obtain ⟨p, left', -, names⟩ := placed_stuck distinct consumers id left
      exact ⟨p, left', names⟩
    obtain ⟨id, loop⟩ := Levels.exists_cycle some' stuck
    exact acyclic id loop

/-- An order is compiled exactly where each target is there and nothing waits on itself. -/
theorem compile_ok_iff : (∃ order, Order.compile nodes consumers = .ok order) ↔
    (∀ node ∈ nodes, ∀ target ∈ node.after, Declared nodes consumers target) ∧ ∀ id, ¬ TransGen (RunsAfter nodes) id id := by
  rw [compile_eq]
  constructor
  · rintro ⟨order, made⟩
    split at made
    · rename_i clean
      obtain ⟨unknown, cyclic⟩ := List.append_eq_nil_iff.mp clean
      have declared := unknownErrors_nil.mp unknown
      refine ⟨declared, (placed_all distinct consumers declared).mp ?_⟩
      by_contra some'
      rw [cycleErrors, if_neg some', List.map_eq_nil_iff] at cyclic
      have stuck : ∀ id ∈ (placedLevels nodes consumers).2, ∃ p ∈ (placedLevels nodes consumers).2,
          p ∈ predecessors (edgesOf nodes consumers) id := by
        intro id left
        obtain ⟨p, left', before, -⟩ := placed_stuck distinct consumers id left
        exact ⟨p, left', before⟩
      exact cycles_reported stuck some' cyclic
    · cases made
  · rintro ⟨declared, acyclic⟩
    have all := (placed_all distinct consumers declared).mpr acyclic
    have clean : unknownErrors nodes consumers = [] := unknownErrors_nil.mpr declared
    rw [cycleErrors, if_pos all, clean, List.append_nil, if_pos rfl]
    exact ⟨_, rfl⟩

variable {order : Order}

/-- Where an order is compiled, its levels are those the rounds placed, and all are placed. -/
theorem compile_levels (made : Order.compile nodes consumers = .ok order) :
    order.levels = (placedLevels nodes consumers).1 ∧ (placedLevels nodes consumers).2 = [] := by
  obtain ⟨declared, acyclic⟩ := (compile_ok_iff distinct consumers).mp ⟨order, made⟩
  refine ⟨?_, (placed_all distinct consumers declared).mpr acyclic⟩
  rw [compile_eq] at made
  split at made
  · cases made
    rfl
  · cases made

theorem node_level (made : Order.compile nodes consumers = .ok order) (inside : id ∈ nodes.map (·.id)) :
    ∃ own, order.level id = some own ∧ (∀ other, RunsAfter nodes id other → ∃ lower, order.level other = some lower ∧ lower < own) ∧
      (own = 0 ↔ ∀ other, ¬ RunsAfter nodes id other) := by
  obtain ⟨same, all⟩ := compile_levels distinct consumers made
  obtain ⟨declared, -⟩ := (compile_ok_iff distinct consumers).mp ⟨order, made⟩
  obtain ⟨last, placed, none⟩ := place_placed (Placed.start (edgesOf nodes consumers) (nodeIds nodes))
  have there : (placedLevels nodes consumers).1.containsKey id = true := by
    apply (placed.splits id).mpr
    refine ⟨mem_sortedSet.mpr inside, ?_⟩
    change id ∉ (placedLevels nodes consumers).2
    rw [all]
    exact List.not_mem_nil
  obtain ⟨own, found⟩ := containsKey_iff.mp there
  have edge : ∀ other, RunsAfter nodes id other → other ∈ predecessors (edgesOf nodes consumers) id := by
    rintro other ⟨node, member, here, names⟩
    apply (mem_edges distinct consumers inside).mpr
    exact ⟨⟨node, member, here, names⟩, declared node member _ names⟩
  rw [Order.level, same]
  refine ⟨own, found, ?_, ?_⟩
  · intro other names
    rw [Order.level, same]
    exact placed.descends id own found other (edge other names)
  · constructor
    · intro zero other names
      subst zero
      have root := placed.bottom id found
      exact absurd (root ▸ edge other names) List.not_mem_nil
    · intro none
      apply placed.rooted id own found
      apply List.eq_nil_iff_forall_not_mem.mpr
      intro p before
      exact none p ((mem_edges distinct consumers inside).mp before).1

instance (order : Order) : Std.Total order.runsBy := ⟨fun _ _ => le_total _ _⟩
instance (order : Order) : IsTrans ContributionRef order.runsBy := ⟨fun _ _ _ => le_trans⟩

theorem sorted_right (made : Order.compile nodes consumers = .ok order) (ids : List ContributionRef) :
    (order.sorted ids).Perm ids ∧ (order.sorted ids).Pairwise fun a b => ¬ TransGen (RunsAfter nodes) a b := by
  refine ⟨List.perm_insertionSort _ ids, ?_⟩
  have sorted : (order.sorted ids).Pairwise order.runsBy := List.pairwise_insertionSort order.runsBy ids
  have descends : ∀ a b, RunsAfter nodes a b → (order.level b).getD Order.usizeMax < (order.level a).getD Order.usizeMax := by
    rintro a b ⟨node, member, rfl, names⟩
    obtain ⟨own, found, below, -⟩ := node_level distinct consumers made (List.mem_map_of_mem (f := (·.id)) member)
    obtain ⟨lower, before, less⟩ := below b ⟨node, member, rfl, names⟩
    rw [found, before]
    exact less
  apply sorted.imp
  intro a b before after
  have less := Levels.rank_lt descends after
  have order' := Prod.Lex.toLex_le_toLex.mp before
  rcases order' with lower | ⟨equal, -⟩
  · exact Nat.lt_asymm less lower
  · exact absurd equal (Nat.ne_of_gt less)

/-- The compiled order is right. -/
theorem compiled_order : ((∃ order, Order.compile nodes consumers = .ok order) ↔
      (∀ node ∈ nodes, ∀ target ∈ node.after, Declared nodes consumers target) ∧ ∀ id, ¬ TransGen (RunsAfter nodes) id id) ∧
    ∀ order, Order.compile nodes consumers = .ok order →
      (∀ id ∈ nodes.map (·.id), ∃ own, order.level id = some own ∧
        (∀ other, RunsAfter nodes id other → ∃ lower, order.level other = some lower ∧ lower < own) ∧
        (own = 0 ↔ ∀ other, ¬ RunsAfter nodes id other)) ∧
      ∀ ids : List ContributionRef,
        (order.sorted ids).Perm ids ∧ (order.sorted ids).Pairwise fun a b => ¬ TransGen (RunsAfter nodes) a b :=
  ⟨compile_ok_iff distinct consumers, fun _ made =>
    ⟨fun _ inside => node_level distinct consumers made inside, fun ids => sorted_right distinct consumers made ids⟩⟩

end

def firstRef : ContributionRef := ⟨.collector, some "other", "first"⟩
def secondRef : ContributionRef := ⟨.effect, some "acme", "second"⟩

/-- An effect after a collector and a core consumer, declared before the collector. -/
def twoNodes : List Node := [⟨secondRef, [.contribution firstRef, .consumer "change.analyze"]⟩, ⟨firstRef, []⟩]

theorem compiled_order_two : ((∃ order, Order.compile twoNodes ["change.analyze"] = .ok order) ↔
      (∀ node ∈ twoNodes, ∀ target ∈ node.after, Declared twoNodes ["change.analyze"] target) ∧
        ∀ id, ¬ TransGen (RunsAfter twoNodes) id id) ∧
    ∀ order, Order.compile twoNodes ["change.analyze"] = .ok order →
      (∀ id ∈ twoNodes.map (·.id), ∃ own, order.level id = some own ∧
        (∀ other, RunsAfter twoNodes id other → ∃ lower, order.level other = some lower ∧ lower < own) ∧
        (own = 0 ↔ ∀ other, ¬ RunsAfter twoNodes id other)) ∧
      ∀ ids : List ContributionRef,
        (order.sorted ids).Perm ids ∧ (order.sorted ids).Pairwise fun a b => ¬ TransGen (RunsAfter twoNodes) a b :=
  compiled_order (by decide : (twoNodes.map (·.id)).Nodup) ["change.analyze"]

end Oxplow.Proofs.ContributionOrder
