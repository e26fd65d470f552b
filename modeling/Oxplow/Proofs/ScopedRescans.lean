import Oxplow.Watch.Pending

/-! A rescan reaches the scopes whose files and directories it concerns. What a scope names at
the top level or by the start of its text it misses, below the root. -/

namespace Oxplow.Proofs.ScopedRescans
open Library Watch Watch.Subscribers

variable {roots : List Path} {scope : Scope} {root dir path : Path}

/-! ## The root a path is taken from -/

theorem relative_of_first {rest : List Path} (inside : root <+: path) : relative (root :: rest) path = some (path.drop root.length) := by
  rw [relative, List.findSome?_cons, Path.stripPrefix, if_pos inside]

theorem relative_of_other {rest : List Path} (outside : ¬ root <+: path) : relative (root :: rest) path = relative rest path := by
  rw [relative, List.findSome?_cons, Path.stripPrefix, if_neg outside]
  rfl

/-- Of roots none of which is inside another, a path has one. -/
theorem relative_under (apart : Tops.Apart Path.Under roots) (member : root ∈ roots) (inside : root <+: path) :
    relative roots path = some (path.drop root.length) := by
  induction roots with
  | nil => exact nomatch member
  | cons first roots ih =>
    by_cases here : first <+: path
    · have same : first = root := by
        rcases List.prefix_or_prefix_of_prefix here inside with above | below
        · exact apart first (List.mem_cons_self ..) root member above
        · exact (apart root member first (List.mem_cons_self ..) below).symm
      rw [same]
      exact relative_of_first inside
    · rw [relative_of_other here]
      apply ih
      · exact fun a there b also above => apart a (List.mem_cons_of_mem _ there) b (List.mem_cons_of_mem _ also) above
      · rcases List.mem_cons.mp member with rfl | later
        · exact absurd inside here
        · exact later

theorem relative_append (apart : Tops.Apart Path.Under roots) (member : root ∈ roots) (rel : Path) :
    relative roots (root ++ rel) = some rel := by
  rw [relative_under apart member (List.prefix_append root rel), List.drop_left]

/-! ## The two readings of a scope -/

theorem overlaps_iff : scope.overlaps dir = true ↔
    scope.allKept = true ∨ dir = [] ∨ (∃ file ∈ scope.files, dir <+: file) ∨ ∃ mine ∈ scope.dirs, dir <+: mine ∨ mine <+: dir := by
  simp only [Scope.overlaps, Bool.or_eq_true, List.any_eq_true, decide_eq_true_eq, or_assoc]

theorem covers_iff : scope.covers path = true ↔
    path ∈ scope.files ∨ (∃ mine ∈ scope.dirs, mine <+: path) ∨ (scope.topLevel = true ∧ path.length = 1) ∨
      ∃ start ∈ scope.prefixes, start.toList <+: path.text.toList := by
  simp only [Scope.covers, Bool.or_eq_true, Bool.and_eq_true, List.any_eq_true, decide_eq_true_eq, or_assoc, exists_eq_right]

theorem hearsChange_iff (apart : Tops.Apart Path.Under roots) (member : root ∈ roots) (rel : Path) (kept : Bool) :
    hearsChange roots (some scope) (root ++ rel) kept = true ↔ (kept = true ∧ scope.allKept = true) ∨ scope.covers rel = true := by
  simp only [hearsChange, relative_append apart member, Option.any_some, Bool.or_eq_true, Bool.and_eq_true]

theorem hearsRescan_iff (apart : Tops.Apart Path.Under roots) (member : root ∈ roots) (rel : Path) :
    hearsRescan roots (some scope) (root ++ rel) = true ↔ scope.overlaps rel = true := by
  simp only [hearsRescan, relative_append apart member]

/-- A directory over or under a covered path is over or under the directory that covers it. -/
theorem overlaps_of_named {rest : Path} (named : dir ++ rest ∈ scope.files ∨ ∃ mine ∈ scope.dirs, mine <+: dir ++ rest) :
    scope.overlaps dir = true := by
  apply overlaps_iff.mpr
  rcases named with file | ⟨mine, member, covers⟩
  · exact .inr (.inr (.inl ⟨dir ++ rest, file, List.prefix_append dir rest⟩))
  · have related : dir <+: mine ∨ mine <+: dir := List.prefix_or_prefix_of_prefix (List.prefix_append dir rest) covers
    exact .inr (.inr (.inr ⟨mine, member, related⟩))

/-- Who hears a rescan, of those that hear a change under it. -/
theorem rescan_heard_iff (roots : List Path) (apart : Tops.Apart Path.Under roots) (root : Path) (member : root ∈ roots) (scope : Scope)
    (dir rest : Path) (kept : Bool) :
    (hearsChange roots (some scope) (root ++ (dir ++ rest)) kept = true → hearsRescan roots (some scope) (root ++ dir) = true) ↔
      scope.allKept = true ∨ dir = [] ∨ (∃ file ∈ scope.files, dir <+: file) ∨ (∃ mine ∈ scope.dirs, dir <+: mine ∨ mine <+: dir) ∨
        ¬ ((scope.topLevel = true ∧ (dir ++ rest).length = 1) ∨
          ∃ start ∈ scope.prefixes, start.toList <+: (Path.text (dir ++ rest)).toList) := by
  have grouped {named : Prop} : (scope.allKept = true ∨ dir = [] ∨ (∃ file ∈ scope.files, dir <+: file) ∨
      (∃ mine ∈ scope.dirs, dir <+: mine ∨ mine <+: dir) ∨ ¬ named) ↔ scope.overlaps dir = true ∨ ¬ named := by
    simp only [overlaps_iff, or_assoc]
  rw [hearsChange_iff apart member, hearsRescan_iff apart member, covers_iff, grouped]
  constructor
  · intro heard
    by_cases reached : scope.overlaps dir = true
    · exact .inl reached
    · exact .inr fun only => reached (heard (.inr (.inr (.inr only))))
  · rintro (reached | unnamed) heard
    · exact reached
    · rcases heard with ⟨-, all⟩ | file | mine | only
      · exact overlaps_iff.mpr (.inl all)
      · exact overlaps_of_named (.inl file)
      · exact overlaps_of_named (.inr mine)
      · exact absurd only unnamed

def worktree : Path := [.rootDir, .normal "r"]

/-- The other spelling of the root. -/
def canonical : Path := [.rootDir, .normal "private", .normal "r"]

theorem rescan_heard_wiki :
    hearsRescan [worktree, canonical] (some (Scope.default.dir [.normal ".oxplow", .normal "wiki"])) (canonical ++ [.normal ".oxplow"]) = true :=
  (rescan_heard_iff [worktree, canonical] (by simp [Tops.Apart, worktree, canonical]) canonical (by simp) _ [.normal ".oxplow"]
      [.normal "wiki", .normal "page.md"] false).mpr
    (.inr (.inr (.inr (.inl ⟨_, List.mem_singleton_self _, .inl (List.prefix_append ..)⟩)))) (by decide)

/-- A scope that names the start of what is in `docs` does not hear a rescan of `docs`. -/
theorem prefix_unheard : ¬ ∀ (scope : Scope) (root dir rest : Path) (kept : Bool),
    hearsChange [root] (some scope) (root ++ (dir ++ rest)) kept = true → hearsRescan [root] (some scope) (root ++ dir) = true := by
  intro all
  have heard := all (Scope.default.withPrefix "docs/a") worktree [.normal "docs"] [.normal "a.md"] true (by decide)
  exact absurd heard (by decide)

end Oxplow.Proofs.ScopedRescans
