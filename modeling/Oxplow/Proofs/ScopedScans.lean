import Oxplow.Proofs.PairOrders

/-! A scan of a scope keeps the best match of each pair of functions it reports. -/

namespace Oxplow.Proofs.ScopedScans
open Oxplow.Duplicates Oxplow.Library
open Oxplow.Proofs.PairOrders

/-! ## One file -/

/-- A subtree as one of the file at `path`. -/
def atPath (path : String) (s : SubtreeRef) : SubtreeRef := { s with path }

/-- The subtrees of a tree, whatever its path and what is wanted of it. -/
def selected (path : String) (wanted : Option (List UInt64)) (subtrees : List SubtreeRef) : List SubtreeRef :=
  (subtrees.filter fun s => wanted.all (s.hash ∈ ·)).map (atPath path)

section Trees

variable {g : Grammars} {lang : Language} {src : String} {opts : DupOptions}

@[simp] theorem selected_nil (path : String) (wanted : Option (List UInt64)) : selected path wanted [] = [] := rfl

@[simp] theorem selected_append (path : String) (wanted : Option (List UInt64)) (xs ys : List SubtreeRef) :
    selected path wanted (xs ++ ys) = selected path wanted xs ++ selected path wanted ys := by
  simp [selected]

theorem ownSubtree_selected (path : String) (wanted : Option (List UInt64)) (fn : Nat × Nat) (node : Node) :
    ownSubtree g path lang src opts wanted fn node = selected path wanted (ownSubtree g "" lang src opts none fn node) := by
  simp only [ownSubtree, Option.all_none, and_true]
  by_cases big : opts.minNodes ≤ (hashSubtree g lang src node).nodeCount ∧
      opts.minLines ≤ (hashSubtree g lang src node).endLine - (hashSubtree g lang src node).startLine + 1
  · by_cases kept : wanted.all ((hashSubtree g lang src node).hash ∈ ·) = true
    · simp [big, kept, selected, atPath]
    · simp [big, kept, selected]
  · have small : ¬ (opts.minNodes ≤ (hashSubtree g lang src node).nodeCount ∧
        opts.minLines ≤ (hashSubtree g lang src node).endLine - (hashSubtree g lang src node).startLine + 1 ∧
        wanted.all ((hashSubtree g lang src node).hash ∈ ·) = true) := fun all => big ⟨all.1, all.2.1⟩
    rw [if_neg big, if_neg small, selected_nil]

mutual

theorem collectSubtrees_selected (path : String) (wanted : Option (List UInt64)) (fn : Nat × Nat) (isRoot : Bool) :
    (node : Node) → collectSubtrees g path lang src opts wanted fn isRoot node =
      selected path wanted (collectSubtrees g "" lang src opts none fn isRoot node)
  | .mk _ _ _ _ _ children => by
    rw [collectSubtrees, collectSubtrees]
    split
    · rfl
    · rw [selected_append, ← ownSubtree_selected, ← collectChildren_selected path wanted fn children]

theorem collectChildren_selected (path : String) (wanted : Option (List UInt64)) (fn : Nat × Nat) :
    (nodes : List Node) → collectChildren g path lang src opts wanted fn nodes =
      selected path wanted (collectChildren g "" lang src opts none fn nodes)
  | [] => by rw [collectChildren, collectChildren, selected_nil]
  | child :: rest => by
    rw [collectChildren, collectChildren, selected_append, ← collectChildren_selected path wanted fn rest]
    split
    · rw [← collectSubtrees_selected path wanted fn false child]
    · rw [selected_nil]

end

mutual

theorem walkForFunctions_selected (path : String) (wanted : Option (List UInt64)) :
    (node : Node) → walkForFunctions g path lang src opts wanted node =
      selected path wanted (walkForFunctions g "" lang src opts none node)
  | .mk _ _ _ _ _ children => by
    rw [walkForFunctions, walkForFunctions, selected_append, ← walkAll_selected path wanted children]
    split
    · rw [← collectSubtrees_selected]
    · rw [selected_nil]

theorem walkAll_selected (path : String) (wanted : Option (List UInt64)) :
    (nodes : List Node) → walkAll g path lang src opts wanted nodes =
      selected path wanted (walkAll g "" lang src opts none nodes)
  | [] => by rw [walkAll, walkAll, selected_nil]
  | child :: rest => by
    rw [walkAll, walkAll, selected_append, ← walkForFunctions_selected path wanted child, ← walkAll_selected path wanted rest]

end

end Trees

theorem scanFile_wanted (g : Grammars) (path source : String) (opts : DupOptions) (wanted : List UInt64) :
    scanFile g path source opts (some wanted) = (scanFile g path source opts none).filter fun s => s.hash ∈ wanted := by
  unfold scanFile
  split
  · rfl
  split
  · rfl
  rw [walkForFunctions_selected path (some wanted), walkForFunctions_selected path none]
  have all (subtrees : List SubtreeRef) : selected path none subtrees = subtrees.map (atPath path) := by
    simp [selected]
  rw [all, List.filter_map]
  rfl

theorem path_of_scanFile {g : Grammars} {path source : String} {opts : DupOptions} {wanted : Option (List UInt64)}
    {s : SubtreeRef} (member : s ∈ scanFile g path source opts wanted) : s.path = path := by
  unfold scanFile at member
  split at member
  · cases member
  split at member
  · cases member
  rw [walkForFunctions_selected] at member
  obtain ⟨s', -, rfl⟩ := List.mem_map.mp member
  rfl

/-! ## Families -/

/-- The path of a function. -/
def pathOf (fn : FnId) : String := (ofLex fn).1

/-- The pair is one a scan of the scope reports: two paths, one of them in scope. -/
def InScope (scope : List String) (pair : FnId × FnId) : Prop :=
  pathOf pair.1 ≠ pathOf pair.2 ∧ (pathOf pair.1 ∈ scope ∨ pathOf pair.2 ∈ scope)

theorem links_congr {fam fam' : List SubtreeRef}
    (same : (fam.insertionSort fun a b => sortKey a ≤ sortKey b) = fam'.insertionSort fun a b => sortKey a ≤ sortKey b) :
    links fam = links fam' := by
  have sizes : fam.length = fam'.length := by
    have lengths := congrArg List.length same
    rwa [List.length_insertionSort, List.length_insertionSort] at lengths
  simp only [links, same, sizes]

variable {subtrees : List SubtreeRef}

theorem mem_order {a b : SubtreeRef} (first : a ∈ subtrees) (second : b ∈ subtrees) :
    (order a b).1 ∈ subtrees ∧ (order a b).2 ∈ subtrees := by
  unfold order
  split
  · exact ⟨first, second⟩
  · exact ⟨second, first⟩

variable {m : Match}

theorem mem_links {fam : List SubtreeRef} (linked : m ∈ links fam) : m.lo ∈ fam ∧ m.hi ∈ fam := by
  have inside {s : SubtreeRef} (member : s ∈ fam.insertionSort fun a b => sortKey a ≤ sortKey b) : s ∈ fam :=
    (List.mem_insertionSort _).mp member
  unfold links at linked
  split at linked
  · cases linked
  dsimp only at linked
  split at linked
  · cases linked
  rename_i first rest sorted
  split at linked
  · cases linked
  rename_i other found
  have firstIn : first ∈ fam := inside (by rw [sorted]; exact List.mem_cons_self ..)
  have otherIn : other ∈ fam := inside (List.mem_of_find?_eq_some found)
  obtain ⟨member, here, rfl⟩ := List.mem_map.mp linked
  apply mem_order (inside here)
  split
  · exact otherIn
  · exact firstIn

/-- Two lists that have the same families, but for those with nothing in scope. -/
structure Alike (scope : List String) (whole part : List SubtreeRef) : Prop where
  families : ∀ hash, links (family whole hash) = links (family part hash) ∨
    ((∀ s ∈ family whole hash, s.path ∉ scope) ∧ family part hash = [])

variable {scope : List String} {whole part : List SubtreeRef} {pair : FnId × FnId}

theorem topOf_alike (alike : Alike scope whole part) (inScope : InScope scope pair) (hash : UInt64) :
    topOf whole pair hash = topOf part pair hash := by
  rcases alike.families hash with same | ⟨outside, empty⟩
  · rw [topOf, topOf, matchesOf, matchesOf, same]
  · have none_ : matchesOf whole pair hash = [] := by
      apply List.filter_eq_nil_iff.mpr
      intro m linked own
      have own : m.pair = pair := by simpa using own
      obtain ⟨loIn, hiIn⟩ := mem_links linked
      rcases inScope.2 with first | second
      · rw [← own] at first
        exact outside m.lo loIn first
      · rw [← own] at second
        exact outside m.hi hiIn second
    have none' : matchesOf part pair hash = [] := by
      rw [matchesOf, empty]
      rfl
    rw [topOf, topOf, none_, none']

theorem hash_known {hash : UInt64} (some_ : (topOf subtrees pair hash).isSome = true) : hash ∈ hashes subtrees := by
  obtain ⟨m, top⟩ := Option.isSome_iff_exists.mp some_
  have linked := (List.mem_filter.mp (mem_of_firstMax top)).1
  obtain ⟨member, own⟩ := List.mem_filter.mp (mem_links linked).1
  have own : m.lo.hash = hash := by simpa using own
  exact List.mem_dedup.mpr (List.mem_map.mpr ⟨m.lo, member, own⟩)

variable {best : Best}

/-- The greatest size is one for every pair that is reported, however the maps are walked. -/
theorem size_alike (alike : Alike scope whole part) {best' : Best} (pairs : Pairs whole best) (pairs' : Pairs part best')
    (inScope : InScope scope pair) : (best.get pair).map Match.size = (best'.get pair).map Match.size := by
  obtain ⟨walk, perm, rfl⟩ := pairs
  obtain ⟨walk', perm', rfl⟩ := pairs'
  have tops : topOf part pair = topOf whole pair := funext fun hash => (topOf_alike alike inScope hash).symm
  rw [get_bestOf, get_bestOf, tops]
  have nodup : walk.Nodup := perm.nodup_iff.mpr (List.nodup_dedup _)
  have nodup' : walk'.Nodup := perm'.nodup_iff.mpr (List.nodup_dedup _)
  have support : (walk.filter fun hash => (topOf whole pair hash).isSome).Perm
      (walk'.filter fun hash => (topOf whole pair hash).isSome) := by
    apply (List.perm_ext_iff_of_nodup (nodup.filter _) (nodup'.filter _)).mpr
    intro hash
    rw [List.mem_filter, List.mem_filter, perm.mem_iff, perm'.mem_iff]
    constructor
    · rintro ⟨-, some_⟩
      exact ⟨hash_known (tops ▸ some_), some_⟩
    · rintro ⟨-, some_⟩
      exact ⟨hash_known some_, some_⟩
  have kept (hashes : List UInt64) : (hashes.filter fun hash => (topOf whole pair hash).isSome).filterMap (topOf whole pair) =
      hashes.filterMap (topOf whole pair) := by
    rw [List.filterMap_filter]
    apply List.filterMap_congr
    intro hash _
    cases topOf whole pair hash <;> rfl
  have both := support.filterMap (topOf whole pair)
  rw [kept, kept] at both
  exact firstMax_size_perm both

/-! ## Reports -/

/-- The scan's best match for the pair has this size, and `scope_blocks` keeps its block. -/
def Keeps (scope : List String) (best : Best) (pair : FnId × FnId) (size : Nat) : Prop :=
  ∃ m, best.get pair = some m ∧ m.size = size ∧ (scopeBlock scope (blockOf m)).isSome = true

theorem scopeBlock_isSome : (scopeBlock scope (blockOf m)).isSome = true ↔ InScope scope m.pair := by
  change _ ↔ m.lo.path ≠ m.hi.path ∧ (m.lo.path ∈ scope ∨ m.hi.path ∈ scope)
  unfold scopeBlock
  change (if m.lo.path = m.hi.path then none else if m.lo.path ∉ scope ∧ m.hi.path ∉ scope then none
    else if m.lo.path ∉ scope then some _ else some _).isSome = true ↔ _
  by_cases same : m.lo.path = m.hi.path
  · simp [same]
  · by_cases first : m.lo.path ∈ scope <;> by_cases second : m.hi.path ∈ scope <;> simp [same, first, second]

theorem pair_of_get (pairs : Pairs subtrees best) (found : best.get pair = some m) : m.pair = pair := by
  obtain ⟨walk, -, rfl⟩ := pairs
  rw [get_bestOf] at found
  obtain ⟨hash, -, top⟩ := List.mem_filterMap.mp (mem_of_firstMax found)
  simpa using (List.mem_filter.mp (mem_of_firstMax top)).2

theorem keeps_iff (pairs : Pairs subtrees best) {size : Nat} :
    Keeps scope best pair size ↔ InScope scope pair ∧ (best.get pair).map Match.size = some size := by
  constructor
  · rintro ⟨m, found, own, kept⟩
    rw [scopeBlock_isSome, pair_of_get pairs found] at kept
    exact ⟨kept, by rw [found, Option.map_some, own]⟩
  · rintro ⟨kept, sized⟩
    obtain ⟨m, found, own⟩ := Option.map_eq_some_iff.mp sized
    exact ⟨m, found, own, scopeBlock_isSome.mpr ((pair_of_get pairs found).symm ▸ kept)⟩

theorem keeps_alike (alike : Alike scope whole part) {best' : Best} (pairs : Pairs whole best) (pairs' : Pairs part best')
    (pair : FnId × FnId) (size : Nat) : Keeps scope best pair size ↔ Keeps scope best' pair size := by
  rw [keeps_iff pairs, keeps_iff pairs']
  constructor
  · rintro ⟨inScope, sized⟩
    exact ⟨inScope, (size_alike alike pairs pairs' inScope) ▸ sized⟩
  · rintro ⟨inScope, sized⟩
    exact ⟨inScope, (size_alike alike pairs pairs' inScope).symm ▸ sized⟩

/-! ## The corpus of a scope -/

/-- Files that have nothing to keep do not matter. -/
theorem filter_flatMap_files {files : List (String × String)} {scan : String × String → List SubtreeRef}
    {keep : SubtreeRef → Bool} {chosen : String × String → Bool}
    (none_ : ∀ file ∈ files, chosen file = false → (scan file).filter keep = []) :
    (files.flatMap scan).filter keep = ((files.filter chosen).flatMap scan).filter keep := by
  induction files with
  | nil => rfl
  | cons file files ih =>
    have rest := ih fun other member => none_ other (List.mem_cons_of_mem _ member)
    rw [List.flatMap_cons, List.filter_append, rest]
    cases mine : chosen file with
    | true => rw [List.filter_cons_of_pos (by simpa using mine), List.flatMap_cons, List.filter_append]
    | false =>
      rw [List.filter_cons_of_neg (by simpa using mine), none_ file (List.mem_cons_self ..) mine, List.nil_append]

theorem flatMap_filter_nil {files : List (String × String)} {scan : String × String → List SubtreeRef}
    {keep : SubtreeRef → Bool} (none_ : ∀ file ∈ files, (scan file).filter keep = []) :
    (files.flatMap scan).filter keep = [] := by
  rw [List.filter_flatMap, List.flatMap_eq_nil_iff]
  exact none_

theorem alike_scoped (g : Grammars) (files : List (String × String)) (scope : List String) (opts : DupOptions) :
    Alike scope (wholeSubtrees g files opts) (scopedSubtrees g files scope opts) := by
  constructor
  intro hash
  let scan := fun file : String × String => scanFile g file.1 file.2 opts none
  let inside := (files.filter fun file => file.1 ∈ scope).flatMap scan
  let outside := files.filter fun file => !(file.1 ∈ scope)
  have onPath (file : String × String) (s : SubtreeRef) (member : s ∈ scan file) : s.path = file.1 := path_of_scanFile member
  have parted : scopedSubtrees g files scope opts =
      inside ++ outside.flatMap fun file => (scan file).filter fun s => s.hash ∈ inside.map SubtreeRef.hash := by
    unfold scopedSubtrees
    simp only [scanFile_wanted]
    rfl
  by_cases wanted : hash ∈ inside.map SubtreeRef.hash
  · refine .inl (links_congr (sorted_eq_of_classes sortKey fun k => ?_))
    rw [family, family, List.filter_filter, List.filter_filter, parted, List.filter_append]
    -- A class of equal keys is of one path, which is in scope or not.
    have ofPath {s : SubtreeRef} (own : (decide (sortKey s = k) && decide (s.hash = hash)) = true) :
        s.path = pathOf (ofLex k).1 ∧ s.hash = hash := by
      simp only [Bool.and_eq_true, decide_eq_true_eq] at own
      exact ⟨by rw [← own.1]; rfl, own.2⟩
    have rest : (outside.flatMap fun file => (scan file).filter fun s => s.hash ∈ inside.map SubtreeRef.hash).filter
          (fun s => decide (sortKey s = k) && decide (s.hash = hash)) =
        (outside.flatMap scan).filter fun s => decide (sortKey s = k) && decide (s.hash = hash) := by
      rw [List.filter_flatMap, List.filter_flatMap]
      congr 1
      funext file
      rw [List.filter_filter]
      apply List.filter_congr
      intro s _
      cases own : (decide (sortKey s = k) && decide (s.hash = hash)) with
      | false => rfl
      | true => rw [(ofPath own).2, decide_eq_true wanted]; rfl
    rw [rest]
    by_cases covered : pathOf (ofLex k).1 ∈ scope
    · have none_ : (outside.flatMap scan).filter (fun s => decide (sortKey s = k) && decide (s.hash = hash)) = [] := by
        apply flatMap_filter_nil
        intro file member
        apply List.filter_eq_nil_iff.mpr
        intro s here own
        have away : file.1 ∉ scope := by simpa using (List.mem_filter.mp member).2
        rw [← onPath file s here, (ofPath own).1] at away
        exact away covered
      rw [none_, List.append_nil]
      apply filter_flatMap_files
      intro file _ unchosen
      apply List.filter_eq_nil_iff.mpr
      intro s here own
      have away : file.1 ∉ scope := by simpa using unchosen
      rw [← onPath file s here, (ofPath own).1] at away
      exact away covered
    · have none_ : inside.filter (fun s => decide (sortKey s = k) && decide (s.hash = hash)) = [] := by
        apply flatMap_filter_nil
        intro file member
        apply List.filter_eq_nil_iff.mpr
        intro s here own
        have there : file.1 ∈ scope := by simpa using (List.mem_filter.mp member).2
        rw [← onPath file s here, (ofPath own).1] at there
        exact covered there
      rw [none_, List.nil_append]
      apply filter_flatMap_files
      intro file _ unchosen
      apply List.filter_eq_nil_iff.mpr
      intro s here own
      have there : file.1 ∈ scope := by simpa using unchosen
      rw [← onPath file s here, (ofPath own).1] at there
      exact covered there
  · refine .inr ⟨fun s member there => wanted ?_, ?_⟩
    · obtain ⟨here, own⟩ := List.mem_filter.mp member
      obtain ⟨file, known, read⟩ := List.mem_flatMap.mp here
      have covered : file.1 ∈ scope := onPath file s read ▸ there
      have found : s ∈ inside := List.mem_flatMap.mpr ⟨file, List.mem_filter.mpr ⟨known, by simpa using covered⟩, read⟩
      have own : s.hash = hash := by simpa using own
      exact List.mem_map.mpr ⟨s, found, own⟩
    · rw [family, parted]
      apply List.filter_eq_nil_iff.mpr
      intro s member own
      have own : s.hash = hash := by simpa using own
      rcases List.mem_append.mp member with early | late
      · exact wanted (List.mem_map.mpr ⟨s, early, own⟩)
      · obtain ⟨file, -, kept⟩ := List.mem_flatMap.mp late
        have matching : s.hash ∈ inside.map SubtreeRef.hash := by simpa using (List.mem_filter.mp kept).2
        rw [own] at matching
        exact wanted matching

end Oxplow.Proofs.ScopedScans
