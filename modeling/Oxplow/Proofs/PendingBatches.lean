import Mathlib.Data.List.DropRight
import Oxplow.Watch.Pending

/-! No change that was heard is lost while it is pending: it is in the next batch, or the batch
rescans a directory that holds it. -/

namespace Oxplow.Proofs.PendingBatches
open Library Watch Watch.Pending

variable {state : Pending} {path dir : Path} {kind : WatchEventKind}

/-! ## Covered paths -/

abbrev Covered (state : Pending) (path : Path) : Prop := Tops.Covered Path.Under state.rescans path

theorem any_under : state.rescans.any (fun dir => decide (dir <+: path)) = true ↔ Covered state path := Tops.any_iff

theorem covered_insertRescan : Covered (state.insertRescan dir) path ↔ Covered state path ∨ dir <+: path := by
  rw [insertRescan]
  split
  · rename_i covered
    obtain ⟨top, member, above⟩ := any_under.mp covered
    exact ⟨Or.inl, fun either => either.elim id fun below => ⟨top, member, above.trans below⟩⟩
  · exact Tops.covered_insert List.IsPrefix.trans

/-- The directory that a path collapses to holds it. -/
theorem topOf_earlier (path : Path) (roots : List Path) : topOf path roots <+: path := by
  induction roots with
  | nil =>
    rw [topOf, Path.parent]
    split
    · exact List.prefix_refl path
    · exact List.prefix_refl path
    · exact List.dropLast_prefix path
  | cons root roots ih =>
    rw [topOf, Path.stripPrefix]
    by_cases inside : root <+: path
    · obtain ⟨rest, rfl⟩ := inside
      rw [if_pos (List.prefix_append root rest), List.drop_left]
      match rest with
      | [] => simp
      | [_] => exact List.prefix_append root _
      | first :: next :: rest => exact ⟨next :: rest, by simp⟩
    · rw [if_neg inside]
      exact ih

/-! ## What every operation keeps -/

structure Kept (state : Pending) : Prop where
  /-- No rescan is inside another. -/
  apart : Tops.Apart Path.Under state.rescans
  /-- No path is under a rescan. -/
  clear : ∀ entry ∈ state.paths, ¬ Covered state entry.1
  capped : state.paths.length ≤ maxPendingPaths

theorem new_kept (roots : List Path) : Kept (new roots) := ⟨nofun, nofun, Nat.zero_le _⟩

theorem Kept.insertRescan (kept : Kept state) (dir : Path) : Kept (state.insertRescan dir) := by
  by_cases covered : Covered state dir
  · rw [Pending.insertRescan, if_pos (any_under.mpr covered)]
    exact kept
  · have added : ∀ path, Covered (state.insertRescan dir) path ↔ Covered state path ∨ dir <+: path := fun path => covered_insertRescan
    rw [Pending.insertRescan, if_neg fun any => covered (any_under.mp any)] at added ⊢
    refine ⟨Tops.apart_insert kept.apart, ?_, ?_⟩
    · intro entry member
      obtain ⟨old, outside⟩ := List.mem_filter.mp member
      rw [added entry.1]
      rintro (under | under)
      · exact kept.clear entry old under
      · exact absurd under (by simpa using outside)
    · exact (List.length_filter_le _ _).trans kept.capped

/-- Rescans of the directories of some paths, when no path is pending. -/
theorem collapse_rescans {paths : List Path} (roots : List Path) (kept : Kept state) (emptied : state.paths = []) :
    Kept (paths.foldl (fun state path => state.insertRescan (topOf path roots)) state) ∧
      (paths.foldl (fun state path => state.insertRescan (topOf path roots)) state).paths = [] ∧
      ∀ path, Covered state path ∨ path ∈ paths → Covered (paths.foldl (fun state path => state.insertRescan (topOf path roots)) state) path := by
  induction paths generalizing state with
  | nil => exact ⟨kept, emptied, fun path either => either.elim id (fun none_ => absurd none_ List.not_mem_nil)⟩
  | cons first paths ih =>
    have still : (state.insertRescan (topOf first roots)).paths = [] := by
      rw [Pending.insertRescan]
      split
      · exact emptied
      · simp [emptied]
    obtain ⟨kept', emptied', covers⟩ := ih (kept.insertRescan _) still
    refine ⟨kept', emptied', ?_⟩
    intro path either
    apply covers
    rcases either with before | member
    · exact .inl (covered_insertRescan.mpr (.inl before))
    · rcases List.mem_cons.mp member with rfl | later
      · exact .inl (covered_insertRescan.mpr (.inr (topOf_earlier path roots)))
      · exact .inr later

/-! ## A change -/

def Heard (state : Pending) (path : Path) (kind : WatchEventKind) : Prop := (path, kind) ∈ state.paths ∨ Covered state path

theorem mem_setPath {paths : List (Path × WatchEventKind)} {entry : Path × WatchEventKind} (member : entry ∈ setPath paths path kind) :
    entry = (path, kind) ∨ entry ∈ paths := by
  rw [setPath] at member
  split at member
  · obtain ⟨old, inside, same⟩ := List.mem_map.mp member
    split at same
    · exact .inl same.symm
    · exact .inr (same ▸ inside)
  · rcases List.mem_append.mp member with old | new
    · exact .inr old
    · exact .inl (List.mem_singleton.mp new)

theorem setPath_self (paths : List (Path × WatchEventKind)) : (path, kind) ∈ setPath paths path kind := by
  rw [setPath]
  split
  · rename_i present
    obtain ⟨old, inside, same⟩ := List.mem_map.mp present
    exact List.mem_map.mpr ⟨old, inside, if_pos same⟩
  · exact List.mem_append_right _ (List.mem_singleton_self _)

variable {other : Path} {kind' : WatchEventKind}

theorem setPath_other {paths : List (Path × WatchEventKind)} (differ : other ≠ path) (member : (other, kind') ∈ paths) :
    (other, kind') ∈ setPath paths path kind := by
  rw [setPath]
  split
  · exact List.mem_map.mpr ⟨(other, kind'), member, if_neg differ⟩
  · exact List.mem_append_left _ member

/-- What a change makes of the state: nothing, when its path is covered; an entry; or rescans
of what holds every path. -/
theorem change_cases (kept : Kept state) (path : Path) (kind : WatchEventKind) :
    (Covered state path ∧ state.change path kind = state) ∨
      (¬ Covered state path ∧ state.change path kind = { state with paths := setPath state.paths path kind } ∧
        (setPath state.paths path kind).length ≤ maxPendingPaths) ∨
      (Kept (state.change path kind) ∧
        ∀ other, Covered state other ∨ other ∈ (setPath state.paths path kind).map Prod.fst → Covered (state.change path kind) other) := by
  by_cases covered : Covered state path
  · exact .inl ⟨covered, if_pos (any_under.mpr covered)⟩
  · have uncovered : ¬ state.rescans.any (fun dir => decide (dir <+: path)) = true := fun any => covered (any_under.mp any)
    by_cases full : maxPendingPaths < (setPath state.paths path kind).length
    · have emptied : Kept { state with paths := [] } := ⟨kept.apart, nofun, Nat.zero_le _⟩
      obtain ⟨kept', -, covers⟩ : Kept ({ state with paths := setPath state.paths path kind } : Pending).collapse ∧
          ({ state with paths := setPath state.paths path kind } : Pending).collapse.paths = [] ∧
          ∀ other, Covered state other ∨ other ∈ (setPath state.paths path kind).map Prod.fst →
            Covered ({ state with paths := setPath state.paths path kind } : Pending).collapse other :=
        collapse_rescans state.roots emptied rfl
      rw [change, if_neg uncovered]
      dsimp only
      rw [if_pos full]
      exact .inr (.inr ⟨kept', covers⟩)
    · rw [change, if_neg uncovered]
      dsimp only
      rw [if_neg full]
      exact .inr (.inl ⟨covered, rfl, Nat.not_lt.mp full⟩)

theorem Kept.change (kept : Kept state) (path : Path) (kind : WatchEventKind) : Kept (state.change path kind) := by
  rcases change_cases kept path kind with ⟨-, same⟩ | ⟨uncovered, set, fits⟩ | ⟨kept', -⟩
  · rwa [same]
  · rw [set]
    refine ⟨kept.apart, ?_, fits⟩
    intro entry member
    rcases mem_setPath member with rfl | old
    · exact uncovered
    · exact kept.clear entry old
  · exact kept'

theorem heard_change_self (kept : Kept state) (path : Path) (kind : WatchEventKind) : Heard (state.change path kind) path kind := by
  rcases change_cases kept path kind with ⟨covered, same⟩ | ⟨-, set, -⟩ | ⟨-, covers⟩
  · rw [same]
    exact .inr covered
  · rw [set]
    exact .inl (setPath_self _)
  · exact .inr (covers path (.inr (List.mem_map.mpr ⟨_, setPath_self _, rfl⟩)))

theorem covered_change (kept : Kept state) (covered : Covered state other) : Covered (state.change path kind) other := by
  rcases change_cases kept path kind with ⟨-, same⟩ | ⟨-, set, -⟩ | ⟨-, covers⟩
  · rwa [same]
  · rwa [set]
  · exact covers other (.inl covered)

theorem heard_change_other (kept : Kept state) (differ : other ≠ path) (heard : Heard state other kind') :
    Heard (state.change path kind) other kind' := by
  rcases heard with entry | covered
  · rcases change_cases kept path kind with ⟨-, same⟩ | ⟨-, set, -⟩ | ⟨-, covers⟩
    · rw [same]
      exact .inl entry
    · rw [set]
      exact .inl (setPath_other differ entry)
    · exact .inr (covers other (.inr (List.mem_map.mpr ⟨_, setPath_other differ entry, rfl⟩)))
  · exact .inr (covered_change kept covered)

theorem heard_insertRescan (heard : Heard state other kind') (dir : Path) : Heard (state.insertRescan dir) other kind' := by
  rcases heard with entry | covered
  · by_cases under : dir <+: other
    · exact .inr (covered_insertRescan.mpr (.inr under))
    · refine .inl ?_
      rw [insertRescan]
      split
      · exact entry
      · exact List.mem_filter.mpr ⟨entry, by simpa using under⟩
  · exact .inr (covered_insertRescan.mpr (.inl covered))

/-! ## Runs -/

def isTake : PendingOp → Bool
  | .take => true
  | _ => false

/-- The operations since the last batch was taken. -/
def unread (ops : List PendingOp) : List PendingOp := ops.rtakeWhile fun op => !isTake op

/-- What was last reported of a path. -/
def lastKind (path : Path) (ops : List PendingOp) : Option WatchEventKind :=
  ops.foldl (fun last op =>
    match op with
    | .change changed kind => if changed = path then some kind else last
    | _ => last) none

/-- What a state owes to the operations since the last batch. -/
structure Owes (state : Pending) (ops : List PendingOp) : Prop where
  kept : Kept state
  changes : ∀ path kind, lastKind path ops = some kind → Heard state path kind
  rescans : ∀ dir, .rescan dir ∈ ops → Covered state dir

theorem lastKind_change (path changed : Path) (kind : WatchEventKind) (ops : List PendingOp) :
    lastKind path (ops ++ [.change changed kind]) = if changed = path then some kind else lastKind path ops := by
  rw [lastKind, List.foldl_append]
  rfl

variable {ops : List PendingOp}

theorem Owes.change (owes : Owes state ops) (changed : Path) (kind : WatchEventKind) :
    Owes (state.change changed kind) (ops ++ [.change changed kind]) := by
  refine ⟨owes.kept.change changed kind, ?_, ?_⟩
  · intro path last reported
    rw [lastKind_change] at reported
    split at reported
    · rename_i same
      obtain rfl := Option.some.inj reported
      exact same ▸ heard_change_self owes.kept changed kind
    · rename_i differ
      exact heard_change_other owes.kept (Ne.symm differ) (owes.changes path last reported)
  · intro dir given
    have before : .rescan dir ∈ ops := by simpa using given
    exact covered_change owes.kept (owes.rescans dir before)

theorem Owes.rescan (owes : Owes state ops) (dir : Path) : Owes (state.insertRescan dir) (ops ++ [.rescan dir]) := by
  refine ⟨owes.kept.insertRescan dir, ?_, ?_⟩
  · intro path last reported
    have before : lastKind path (ops ++ [.rescan dir]) = lastKind path ops := by
      rw [lastKind, List.foldl_append]
      rfl
    exact heard_insertRescan (owes.changes path last (before ▸ reported)) dir
  · intro other given
    rcases List.mem_append.mp given with before | new
    · exact covered_insertRescan.mpr (.inl (owes.rescans other before))
    · obtain rfl := PendingOp.rescan.inj (List.mem_singleton.mp new)
      exact covered_insertRescan.mpr (.inr (List.prefix_refl other))

theorem Owes.close (owes : Owes state ops) : Owes { state with closed := true } (ops ++ [.close]) := by
  refine ⟨⟨owes.kept.apart, owes.kept.clear, owes.kept.capped⟩, ?_, ?_⟩
  · intro path last reported
    have before : lastKind path (ops ++ [.close]) = lastKind path ops := by
      rw [lastKind, List.foldl_append]
      rfl
    exact owes.changes path last (before ▸ reported)
  · intro dir given
    have before : .rescan dir ∈ ops := by simpa using given
    exact owes.rescans dir before

theorem take_owes (state : Pending) : Owes state.take.1 [] := by
  have left : state.take.1 = { state with paths := [], rescans := [] } := by
    rw [take]
    split <;> rfl
  rw [left]
  exact ⟨⟨nofun, nofun, Nat.zero_le _⟩, nofun, nofun⟩

theorem run_owes (roots : List Path) (ops : List PendingOp) : Owes (run (new roots) ops) (unread ops) := by
  induction ops using List.reverseRecOn with
  | nil => exact ⟨new_kept roots, nofun, nofun⟩
  | append_singleton ops op ih =>
    rw [run, Machine.run_append, unread, List.rtakeWhile_concat]
    cases op with
    | change path kind => exact ih.change path kind
    | rescan dir => exact ih.rescan dir
    | close => exact ih.close
    | take => exact take_owes _

/-- What the next read of a state takes. -/
def nextBatch (state : Pending) : Batch := ⟨state.paths, state.rescans⟩

theorem take_batch (state : Pending) (batch : Batch) (taken : state.take.2 = some batch) : batch = nextBatch state := by
  rw [take] at taken
  split at taken
  · exact nomatch taken
  · exact (Option.some.inj taken).symm

end Oxplow.Proofs.PendingBatches
