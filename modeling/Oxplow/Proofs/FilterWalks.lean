import Oxplow.Watch.Filter

/-! When a walk that prunes finds what the filter keeps. A directory is judged alone, a path
by its own rules and its parents', so they part where something kept lies under a directory
that is dropped. -/

namespace Oxplow.Proofs.FilterWalks
open Watch Watch.WorkspaceFilter Library

variable (filter : WorkspaceFilter)

/-! ## What is kept under what is dropped -/

/-- The lists and the ignore files drop a directory outside oxplow's own. -/
def DropsDir (dir : List String) : Prop :=
  matchesFilterEntries filter.includes dir = false ∧
    (matchesFilterEntries filter.excludes dir = true ∨ (filter.gitDecision dir true).isIgnore = true)

/-- A path in oxplow's own directory is kept. -/
def KeepsOwn (watching : Bool) (path : List String) (isDir : Bool) : Option String → Prop
  | none => True
  | some name =>
    (name = "wiki" ∧ watching = true) ∨
      (name = "extensions" ∧ (watching = true ∨ (filter.gitDecision path isDir).isIgnore = false)) ∨
      ((name ≠ "wiki" ∨ watching = false) ∧ name ≠ "extensions" ∧ isDir = false ∧ (filter.gitDecision path isDir).isWhitelist = true)

/-- What is kept under a directory that is dropped: by an entry of `include` that does not
match the directory; by a negation under a directory that git ignores; in oxplow's own
directory, under a directory that is dropped; or deeper in it, by a negation. -/
inductive Slips (watching : Bool) (path : List String) (isDir : Bool) (dir : List String) : Prop where
  | included (plain : special path = none) (included : matchesFilterEntries filter.includes path = true) (dropped : DropsDir filter dir)
  | negated (plain : special path = none) (included : matchesFilterEntries filter.includes path = false)
      (excluded : matchesFilterEntries filter.excludes path = false) (dropped : (filter.gitDecision dir true).isIgnore = true)
      (kept : (filter.gitDecision path isDir).isIgnore = false)
  | own (next : Option String) (inside : special path = some (.oxplow next)) (outside : special dir = none) (dropped : DropsDir filter dir)
      (kept : KeepsOwn filter watching path isDir next)
  | source (inside : special dir = some (.oxplow (some "extensions"))) (trees : watching = false)
      (dropped : (filter.gitDecision dir true).isIgnore = true) (kept : (filter.gitDecision path isDir).isIgnore = false)
  | deeper (name : String) (inside : special dir = some (.oxplow (some name))) (plain : name ≠ "extensions")
      (unwatched : name ≠ "wiki" ∨ watching = false) (file : isDir = false) (kept : (filter.gitDecision path isDir).isWhitelist = true)

/-! ## Directories and what is under them -/

theorem special_append (dir rest : List String) : special (dir ++ rest) =
    match special dir with
    | none => special rest
    | some (.oxplow none) => some (.oxplow rest.head?)
    | found => found := by
  induction dir with
  | nil => rfl
  | cons name dir ih =>
    rw [List.cons_append, special, special]
    by_cases own : name = ".oxplow"
    · rw [if_pos own, if_pos own]
      cases dir <;> rfl
    · rw [if_neg own, if_neg own]
      split
      · rfl
      · exact ih

variable {dir path : List String}

theorem matches_below {entries : List FilterEntry} (above : dir <+: path) (matched : matchesFilterEntries entries dir = true) :
    matchesFilterEntries entries path = true := by
  obtain ⟨entry, member, here⟩ := List.any_eq_true.mp matched
  apply List.any_eq_true.mpr
  refine ⟨entry, member, ?_⟩
  cases entry with
  | segment name =>
    rw [List.contains_iff_mem] at here ⊢
    exact above.subset here
  | path names =>
    rw [ List.isPrefixOf_iff_prefix] at here ⊢
    exact here.trans above

variable {filter}

theorem decideRules_dir (nonempty : dir ≠ []) : filter.decideRules dir true = true ↔ DropsDir filter dir := by
  have named : dir.isEmpty = false := List.isEmpty_eq_false_iff.mpr nonempty
  rw [decideRules, DropsDir, named]
  cases matchesFilterEntries filter.includes dir <;> cases matchesFilterEntries filter.excludes dir <;> simp

theorem decideRules_keeps (nonempty : path ≠ []) (isDir : Bool) :
    filter.decideRules path isDir = false ↔
    matchesFilterEntries filter.includes path = true ∨
      matchesFilterEntries filter.includes path = false ∧ matchesFilterEntries filter.excludes path = false ∧
        (filter.gitDecision path isDir).isIgnore = false := by
  have named : path.isEmpty = false := List.isEmpty_eq_false_iff.mpr nonempty
  rw [decideRules, named]
  cases matchesFilterEntries filter.includes path <;> cases matchesFilterEntries filter.excludes path <;> simp

theorem decide_own (watching : Bool) {next : Option String} (inside : special path = some (.oxplow next)) (isDir : Bool) :
    filter.decide path isDir watching = false ↔ KeepsOwn filter watching path isDir next := by
  rw [WorkspaceFilter.decide, inside]
  cases next with
  | none => simp [KeepsOwn]
  | some name =>
    simp only [KeepsOwn]
    by_cases wiki : name = "wiki"
    · subst wiki
      cases watching <;> simp
    · by_cases sources : name = "extensions"
      · subst sources
        cases watching <;> simp
      · cases isDir <;> simp [wiki, sources]

theorem special_above (above : dir <+: path) (plain : special path = none) : special dir = none := by
  obtain ⟨rest, rfl⟩ := above
  rw [special_append] at plain
  cases here : special dir with
  | none => rfl
  | some found =>
    rw [here] at plain
    cases found with
    | ignored => cases plain
    | oxplow next => cases next <;> cases plain

theorem special_below (above : dir <+: path) {name : String} (inside : special dir = some (.oxplow (some name))) :
    special path = some (.oxplow (some name)) := by
  obtain ⟨rest, rfl⟩ := above
  rw [special_append, inside]

theorem ignored_below (above : dir <+: path) (ignored : special dir = some .ignored) : special path = some .ignored := by
  obtain ⟨rest, rfl⟩ := above
  rw [special_append, ignored]

theorem decide_plain (watching : Bool) (plain : special path = none) (isDir : Bool) :
    filter.decide path isDir watching = filter.decideRules path isDir := by
  rw [WorkspaceFilter.decide, plain]

theorem decide_outside (watching : Bool) (nonempty : dir ≠ []) (outside : special dir = none) :
    filter.decide dir true watching = true ↔ DropsDir filter dir := by
  rw [decide_plain watching outside]
  exact decideRules_dir nonempty

section Under

variable {watching isDir : Bool} {path dir : List String}

/-- What slips is kept, under a directory that is dropped. -/
theorem parts_of_slips (between : Between [] dir path) (slips : Slips filter watching path isDir dir) :
    filter.decide dir true watching = true ∧ filter.decide path isDir watching = false := by
  obtain ⟨-, nonempty, above, -⟩ := between
  have filled : path ≠ [] := by
    rintro rfl
    exact nonempty (List.prefix_nil.mp above)
  cases slips with
  | included plain included dropped =>
    refine ⟨(decide_outside watching nonempty (special_above above plain)).mpr dropped, ?_⟩
    rw [decide_plain watching plain]
    exact (decideRules_keeps filled isDir).mpr (.inl included)
  | negated plain included excluded dropped kept =>
    have out : matchesFilterEntries filter.includes dir = false := by
      apply Bool.eq_false_iff.mpr
      intro matched
      exact absurd (included.symm.trans (matches_below above matched)) Bool.false_ne_true
    refine ⟨(decide_outside watching nonempty (special_above above plain)).mpr ⟨out, .inr dropped⟩, ?_⟩
    rw [decide_plain watching plain]
    exact (decideRules_keeps filled isDir).mpr (.inr ⟨included, excluded, kept⟩)
  | own next inside outside dropped kept =>
    exact ⟨(decide_outside watching nonempty outside).mpr dropped, (decide_own watching inside isDir).mpr kept⟩
  | source inside trees dropped kept =>
    subst trees
    refine ⟨?_, (decide_own false (special_below above inside) isDir).mpr (.inr (.inl ⟨rfl, .inr kept⟩))⟩
    rw [WorkspaceFilter.decide, inside]
    simp [dropped]
  | deeper name inside plain unwatched file kept =>
    refine ⟨?_, (decide_own watching (special_below above inside) isDir).mpr (.inr (.inr ⟨unwatched, plain, file, kept⟩))⟩
    rw [WorkspaceFilter.decide, inside]
    obtain other | trees := unwatched
    · simp [other, plain]
    · simp [trees, plain]

/-- And what is kept under a directory that is dropped slips. -/
theorem slips_of_parts (between : Between [] dir path) (dropped : filter.decide dir true watching = true)
    (kept : filter.decide path isDir watching = false) : Slips filter watching path isDir dir := by
  obtain ⟨-, nonempty, above, -⟩ := between
  have filled : path ≠ [] := by
    rintro rfl
    exact nonempty (List.prefix_nil.mp above)
  cases here : special dir with
  | none =>
    have drops := (decide_outside watching nonempty here).mp dropped
    cases there : special path with
    | none =>
      rw [decide_plain watching there] at kept
      obtain included | ⟨included, excluded, kept⟩ := (decideRules_keeps filled isDir).mp kept
      · exact .included there included drops
      · obtain ⟨-, matched | ignored⟩ := drops
        · exact absurd (excluded.symm.trans (matches_below above matched)) Bool.false_ne_true
        · exact .negated there included excluded ignored kept
    | some found =>
      cases found with
      | oxplow next => exact .own next there here drops ((decide_own watching there isDir).mp kept)
      | ignored =>
        rw [WorkspaceFilter.decide, there] at kept
        cases kept
  | some found =>
    cases found with
    | ignored =>
      rw [WorkspaceFilter.decide, ignored_below above here] at kept
      cases kept
    | oxplow next =>
      cases next with
      | none =>
        rw [WorkspaceFilter.decide, here] at dropped
        cases dropped
      | some name =>
        rw [WorkspaceFilter.decide, here] at dropped
        obtain ⟨rfl, rfl⟩ | ⟨rfl, still⟩ | ⟨unwatched, plain, file, whitelisted⟩ := (decide_own watching (special_below above here) isDir).mp kept
        · cases dropped
        · cases watching with
          | true => cases dropped
          | false =>
            have ignored : (filter.gitDecision dir true).isIgnore = true := by simpa using dropped
            exact .source here rfl ignored (still.resolve_left Bool.false_ne_true)
        · exact .deeper name here plain unwatched file whitelisted

end Under

/-! ## The walks -/

/-- A walk that prunes finds what is kept exactly where nothing slips. -/
theorem walk_iff (watching : Bool) (tree : List (PathTree String)) :
    (∀ path, path ∈ prunedWalk (fun path isDir => filter.decide path isDir watching) [] tree ↔
        path ∈ treeFiles [] tree ∧ filter.decide path false watching = false) ↔
      ∀ path ∈ treeFiles [] tree, ∀ dir, Between [] dir path → ¬ Slips filter watching path false dir := by
  constructor
  · intro same path file dir between slips
    obtain ⟨dropped, kept⟩ := parts_of_slips between slips
    have walked := (mem_prunedWalk tree).mp ((same path).mpr ⟨file, kept⟩)
    exact absurd ((walked.2.2 dir between).symm.trans dropped) Bool.false_ne_true
  · intro clear path
    constructor
    · intro walked
      obtain ⟨file, kept, -⟩ := (mem_prunedWalk tree).mp walked
      exact ⟨file, kept⟩
    · rintro ⟨file, kept⟩
      refine (mem_prunedWalk tree).mpr ⟨file, kept, ?_⟩
      intro dir between
      apply Bool.eq_false_iff.mpr
      intro dropped
      exact clear path file dir between (slips_of_parts between dropped kept)

theorem mem_ancestors : dir ∈ ancestors path ↔ Between [] dir path := by
  rw [ancestors, List.mem_map]
  constructor
  · rintro ⟨n, member, rfl⟩
    obtain ⟨low, high⟩ := List.mem_range'_1.mp member
    refine ⟨ List.nil_prefix, ?_, List.take_prefix n path, ?_⟩
    · intro empty
      have length := congrArg List.length empty
      rw [List.length_take, List.length_nil] at length
      omega
    · intro whole
      have length := congrArg List.length whole
      rw [List.length_take] at length
      omega
  · rintro ⟨-, nonempty, above, short⟩
    refine ⟨dir.length, ?_, (List.prefix_iff_eq_take.mp above).symm⟩
    have positive : 0 < dir.length := List.length_pos_iff.mpr nonempty
    have le := above.length_le
    have ne : dir.length ≠ path.length := fun same => short (above.eq_of_length same)
    rw [List.mem_range'_1]
    omega

/-- A reported path is judged as any other exactly where it does not slip, or the user
includes something. -/
theorem ignoreChange_iff (path : List String) (isDir : Bool) : filter.ignoreChange path isDir = filter.ignore path isDir ↔
    (filter.includes = [] → ∀ dir, Between [] dir path → ¬ Slips filter true path isDir dir) := by
  rw [ignoreChange]
  constructor
  · intro same none dir between slips
    obtain ⟨dropped, kept⟩ := parts_of_slips between slips
    have above : (ancestors path).any (filter.ignore · true) = true := List.any_eq_true.mpr ⟨dir, mem_ancestors.mpr between, dropped⟩
    rw [none, above] at same
    exact absurd (kept.symm.trans same.symm) Bool.false_ne_true
  · intro clear
    split
    · rename_i both
      obtain ⟨empty, above⟩ := Bool.and_eq_true_iff.mp both
      obtain ⟨dir, member, dropped⟩ := List.any_eq_true.mp above
      have between := mem_ancestors.mp member
      cases kept : filter.ignore path isDir with
      | true => rfl
      | false => exact absurd (slips_of_parts between dropped kept) (clear (List.isEmpty_iff.mp empty) dir between)
    · rfl

/-- However the filter is asked it gives one answer exactly where nothing is kept under a
directory that is dropped: of the files a sweep reaches, of those of the working tree and of
a stored one, and of a path that a watch reports. -/
theorem one_answer_iff (filter : WorkspaceFilter) (tree : List (PathTree String)) :
    ((∀ path, path ∈ filter.sweep tree ↔ path ∈ treeFiles [] tree ∧ filter.ignore path false = false) ↔
        ∀ path ∈ treeFiles [] tree, ∀ dir, Between [] dir path → ¬ Slips filter true path false dir) ∧
      ((∀ path, path ∈ filter.workingCells tree ↔ path ∈ filter.cells (treeFiles [] tree)) ↔
        ∀ path ∈ treeFiles [] tree, ∀ dir, Between [] dir path → ¬ Slips filter false path false dir) ∧
      ∀ path isDir, filter.ignoreChange path isDir = filter.ignore path isDir ↔
        (filter.includes = [] → ∀ dir, Between [] dir path → ¬ Slips filter true path isDir dir) := by
  refine ⟨walk_iff true tree, ?_, fun path isDir => ignoreChange_iff path isDir⟩
  rw [← walk_iff false tree]
  have cells : ∀ path, path ∈ filter.cells (treeFiles [] tree) ↔ path ∈ treeFiles [] tree ∧ filter.decide path false false = false := by
    intro path
    rw [WorkspaceFilter.cells, List.mem_filter, Bool.not_eq_true']
    rfl
  simp only [cells]
  rfl

/-- The root's ignore file has two lines: the directory `dist`, and its `keep.txt` again. -/
def rootPatterns : Patterns := fun path isDir =>
  if path == ["dist"] && isDir then .ignore else if path == ["dist", "keep.txt"] then .whitelist else .none

def negating : WorkspaceFilter := ⟨fun dir => if dir = [] then some rootPatterns else none, [], []⟩

/-- The ignore file has the first of the lines alone, and the user includes the file. -/
def including : WorkspaceFilter :=
  ⟨fun dir => if dir = [] then some fun path isDir => if path == ["dist"] && isDir then .ignore else .none else none, [], [.segment "keep.txt"]⟩

def distTree : List (PathTree String) := [.dir "dist" [.file "keep.txt"]]

theorem kept_and_never_swept :
    (negating.ignore ["dist", "keep.txt"] false = false ∧ negating.ignoreChange ["dist", "keep.txt"] false = true ∧
      negating.sweep distTree = [] ∧ negating.workingCells distTree = [] ∧
        negating.cells (treeFiles [] distTree) = [["dist", "keep.txt"]]) ∧
      including.ignore ["dist", "keep.txt"] false = false ∧ including.ignoreChange ["dist", "keep.txt"] false = false ∧
        including.sweep distTree = [] := by
  refine ⟨⟨?_, ?_, ?_, ?_, ?_⟩, ?_, ?_, ?_⟩ <;> rfl

end Oxplow.Proofs.FilterWalks
