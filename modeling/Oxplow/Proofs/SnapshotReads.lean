import Oxplow.Snapshots.SnapshotStore

/-! The readings of a history of rows agree: each is the rows laid over the base it starts
from. -/

namespace Oxplow.Proofs.SnapshotReads
open Library Snapshots Snapshots.SnapshotDb

/-! ## Trees as layers -/

/-- What a row leaves at its path. -/
def entryOf (row : FileSnapshot) : Option TreeEntry := if row.storage = .deleted then none else some row.toEntry

/-- What it leaves as it is stored. -/
def storedEntry (row : FileSnapshot) : Option TreeEntry := entryOf { row with contentHash := row.storedHash }

variable {tree : SnapshotTree} {rows : List FileSnapshot} {path : String}

theorem getElem?_overlay : (overlay tree rows)[path]? = Overlay.lay FileSnapshot.path storedEntry (tree[·]?) rows path := by
  induction rows using List.reverseRec with
  | nil => rfl
  | append_singleton rows row ih =>
    rw [overlay, List.foldl_append, List.foldl_cons, List.foldl_nil, ← overlay, Overlay.lay, Overlay.newest_concat]
    by_cases gone : row.storage = .deleted
    · rw [if_pos gone, Std.ExtTreeMap.getElem?_erase, ih]
      by_cases same : row.path = path
      · simp [same, storedEntry, entryOf, gone]
      · simp [same, Overlay.lay]
    · rw [if_neg gone, Std.ExtTreeMap.getElem?_insert, ih]
      by_cases same : row.path = path
      · simp [same, storedEntry, entryOf, gone, FileSnapshot.toEntry]
      · simp [same, Overlay.lay]

theorem getElem?_identities : (identities tree)[path]? = tree[path]?.map (·.identity) := Std.ExtTreeMap.getElem?_map

theorem getElem?_ofList_rows {α : Type} {value : FileSnapshot → α} (distinct : rows.Pairwise fun a b => a.path ≠ b.path) :
    (Std.ExtTreeMap.ofList (rows.map fun row => (row.path, value row)) : Std.ExtTreeMap String α)[path]? =
      (Overlay.newest FileSnapshot.path rows path).map value := by
  cases found : Overlay.newest FileSnapshot.path rows path with
  | none =>
    refine Std.ExtTreeMap.getElem?_ofList_of_contains_eq_false ?_
    have absent := Overlay.newest_eq_none.mp found
    simpa using fun row member => absent row member
  | some row =>
    obtain ⟨member, rfl⟩ := Overlay.newest_mem found
    refine Std.ExtTreeMap.getElem?_ofList_of_mem Std.ReflCmp.compare_self ?_ (List.mem_map_of_mem member)
    refine List.pairwise_map.mpr (distinct.imp fun apart same => apart (Std.LawfulEqCmp.eq_of_compare same))

theorem getElem?_treeOf (distinct : rows.Pairwise fun a b => a.path ≠ b.path) :
    (treeOf rows)[path]? = (Overlay.newest FileSnapshot.path rows path).map (·.toEntry) :=
  getElem?_ofList_rows distinct

/-! ## The rows of a store -/

variable {η : Type} {db : SnapshotDb η} {a b s : Snapshot η} {row : FileSnapshot}

/-- The snapshot a row was recorded under. -/
def under (row : FileSnapshot) : Nat := row.snapshotId.getD 0

/-- Rows are recorded snapshot by snapshot, one a path, each under a snapshot of its stream
and telling its content. -/
structure Rows (db : SnapshotDb η) : Prop where
  snapshotsUp : db.snapshots.Pairwise fun a b => a.id < b.id
  snapshotBound : ∀ s ∈ db.snapshots, s.id < db.nextSnapshot
  filesUp : db.files.Pairwise fun a b => a.id < b.id ∧ under a ≤ under b ∧ (under a = under b → a.path ≠ b.path)
  fileBound : ∀ row ∈ db.files, row.id < db.nextFile
  filed : ∀ row ∈ db.files, ∃ s ∈ db.snapshots, row.snapshotId = some s.id ∧ row.streamId = s.streamId
  told : ∀ row ∈ db.files, row.Told ∧ row.storedHash = row.contentHash

theorem Rows.snapshot?_of_mem (kept : Rows db) (member : s ∈ db.snapshots) : db.snapshot? s.id = some s := by
  obtain ⟨early, late, shape⟩ := List.append_of_mem member
  have pairs := List.pairwise_append.mp (shape ▸ kept.snapshotsUp)
  rw [snapshot?, shape, List.find?_append]
  have fresh : early.find? (·.id = s.id) = none :=
    List.find?_eq_none.mpr fun other inside => by simpa using (pairs.2.2 other inside s List.mem_cons_self).ne
  simp [fresh]

theorem Rows.before_rows (kept : Rows db) : db.files.Pairwise before := by
  refine kept.filesUp.imp fun {a b} up => ?_
  rcases Nat.lt_or_eq_of_le up.2.1 with less | same
  · exact .inl less
  · exact .inr ⟨same, up.1⟩

theorem before_asymm (a b : FileSnapshot) (comes : before a b) : ¬ before b a := by
  unfold before at *
  omega

theorem Rows.under_eq (kept : Rows db) (member : row ∈ db.files) : row.snapshotId = some (under row) := by
  obtain ⟨_, _, same, _⟩ := kept.filed row member
  simp [under, same]

/-- The rows that one stream recorded up to a snapshot. -/
theorem Rows.rowsUpTo_eq (kept : Rows db) (stream upTo : Nat) :
    db.rowsUpTo stream upTo = db.files.filter fun row => decide (row.streamId = stream) && decide (under row ≤ upTo) := by
  refine List.filter_congr fun row member => ?_
  simp [kept.under_eq member]

theorem Rows.spanRows_eq (kept : Rows db) (stream after upTo : Nat) :
    db.spanRows stream after upTo =
      db.files.filter fun row => decide (row.streamId = stream) && decide (after < under row ∧ under row ≤ upTo) := by
  refine List.filter_congr fun row member => ?_
  simp [kept.under_eq member]

theorem Rows.rowsUpTo_append (kept : Rows db) (stream : Nat) {after upTo : Nat} (le : after ≤ upTo) :
    db.rowsUpTo stream upTo = db.rowsUpTo stream after ++ db.spanRows stream after upTo := by
  have ordered : db.files.Pairwise fun x y => decide (after < under x) = true → decide (after < under y) = true :=
    kept.filesUp.imp fun up => by simpa using fun late => late.trans_le up.2.1
  rw [kept.rowsUpTo_eq, kept.rowsUpTo_eq, kept.spanRows_eq, Overlay.filter_split _ ordered]
  congr 1
  · refine List.filter_congr fun row _ => ?_
    rw [Bool.eq_iff_iff]
    simp only [Bool.and_eq_true, decide_eq_true_eq, Bool.not_eq_true', decide_eq_false_iff_not]
    omega
  · refine List.filter_congr fun row _ => ?_
    simp [Bool.and_assoc, Bool.and_comm]

/-- A tree is what its stream's rows up to it leave. -/
theorem Rows.getElem?_treeAt (kept : Rows db) (member : s ∈ db.snapshots) :
    (db.treeAt s.id)[path]? = Overlay.lay FileSnapshot.path entryOf (fun _ => none) (db.rowsUpTo s.streamId s.id) path := by
  have inOrder : (db.rowsUpTo s.streamId s.id).Pairwise before := kept.before_rows.sublist List.filter_sublist
  have distinct : (Overlay.tops FileSnapshot.path before (db.rowsUpTo s.streamId s.id)).Pairwise fun x y => x.path ≠ y.path :=
    Overlay.tops_distinct inOrder
  rw [treeAt, kept.snapshot?_of_mem member]
  change (treeOf (List.filter _ _))[path]? = _
  rw [getElem?_treeOf (distinct.sublist List.filter_sublist), Overlay.newest_keep distinct,
    Overlay.newest_tops inOrder before_asymm, Overlay.lay]
  cases Overlay.newest FileSnapshot.path (db.rowsUpTo s.streamId s.id) path with
  | none => rfl
  | some row => by_cases gone : row.storage = .deleted <;> simp [entryOf, gone, Option.filter]

/-- A later tree is what the rows between leave over the earlier one. -/
theorem Rows.getElem?_treeAt_span (kept : Rows db) (inA : a ∈ db.snapshots) (inB : b ∈ db.snapshots)
    (stream : a.streamId = b.streamId) (le : a.id ≤ b.id) :
    (db.treeAt b.id)[path]? =
      Overlay.lay FileSnapshot.path entryOf ((db.treeAt a.id)[·]?) (db.spanRows b.streamId a.id b.id) path := by
  have below : (fun p => (db.treeAt a.id)[p]?) =
      Overlay.lay FileSnapshot.path entryOf (fun _ => none) (db.rowsUpTo b.streamId a.id) := by
    funext p
    rw [kept.getElem?_treeAt inA, stream]
  rw [kept.getElem?_treeAt inB, kept.rowsUpTo_append b.streamId le, Overlay.lay_append, below]

theorem storedEntry_of_stored (stored : row.storedHash = row.contentHash) : storedEntry row = entryOf row := by
  rw [storedEntry, stored]

/-- The span's files laid over the tree they start from are the tree they lead to. -/
theorem Rows.span_overlaid (kept : Rows db) (inA : a ∈ db.snapshots) (inB : b ∈ db.snapshots)
    (stream : a.streamId = b.streamId) (le : a.id ≤ b.id) :
    overlay (db.treeAt a.id) (db.listSpanFiles a.id b.id) = db.treeAt b.id := by
  have inOrder : (db.spanRows b.streamId a.id b.id).Pairwise before := kept.before_rows.sublist List.filter_sublist
  have ids : (Overlay.tops FileSnapshot.path before (db.spanRows b.streamId a.id b.id)).Pairwise fun x y => x.id ≤ y.id := by
    refine List.Pairwise.sublist (List.filter_sublist.trans List.filter_sublist) (kept.filesUp.imp fun up => up.1.le)
  have files : db.listSpanFiles a.id b.id = Overlay.tops FileSnapshot.path before (db.spanRows b.streamId a.id b.id) := by
    rw [listSpanFiles, kept.snapshot?_of_mem inB]
    exact List.mergeSort_of_pairwise (ids.imp fun up => decide_eq_true up)
  refine Std.ExtTreeMap.ext_getElem? fun path => ?_
  rw [getElem?_overlay, kept.getElem?_treeAt_span inA inB stream le, files, Overlay.lay, Overlay.newest_tops inOrder before_asymm,
    Overlay.lay]
  cases found : Overlay.newest FileSnapshot.path (db.spanRows b.streamId a.id b.id) path with
  | none => rfl
  | some row =>
    have member : row ∈ db.files := (List.mem_filter.mp (Overlay.newest_mem found).1).1
    exact storedEntry_of_stored (kept.told row member).2

/-! ## Changes -/

/-- How a path's content changed, by what told it before and after. -/
def statusOf : Option String → Option String → Option ChangeStatus
  | none, none => none
  | none, some _ => some .added
  | some _, none => some .deleted
  | some old, some new => if old = new then none else some .modified

theorem statusOf_self {identity : Option String} : statusOf identity identity = none := by
  cases identity <;> simp [statusOf]

theorem mergeSort_strict {ρ : Type} {path : ρ → String} {items : List ρ} (distinct : items.Pairwise fun a b => path a ≠ path b) :
    (items.mergeSort fun a b => (compare (path a) (path b)).isLE).Pairwise fun a b => compare (path a) (path b) = .lt := by
  have total : ∀ a b, ((compare (path a) (path b)).isLE || (compare (path b) (path a)).isLE) = true := fun a b => by
    have swap : compare (path b) (path a) = (compare (path a) (path b)).swap := Std.OrientedCmp.eq_swap
    rw [swap]
    cases compare (path a) (path b) <;> rfl
  have sorted : (items.mergeSort fun a b => (compare (path a) (path b)).isLE).Pairwise fun a b => (compare (path a) (path b)).isLE :=
    List.pairwise_mergeSort (fun _ _ _ => Std.TransCmp.isLE_trans) total items
  have apart : (items.mergeSort fun a b => (compare (path a) (path b)).isLE).Pairwise fun a b => path a ≠ path b :=
    distinct.perm (List.mergeSort_perm items _).symm fun open_ same => open_ same.symm
  refine sorted.imp₂ (fun {a b} le open_ => ?_) apart
  cases order : compare (path a) (path b) with
  | lt => rfl
  | eq => exact absurd (Std.LawfulEqCmp.eq_of_compare order) open_
  | gt => simp [order] at le

variable {before after : Identities} {change : FileChange}

theorem mem_diffTrees :
    change ∈ diffTrees before after ↔ statusOf before[change.path]? after[change.path]? = some change.status := by
  obtain ⟨path, status⟩ := change
  simp only [diffTrees, arrived, Snapshots.gone, List.mem_mergeSort, List.mem_append, List.mem_filterMap, Prod.exists,
    Std.ExtTreeMap.mem_toList_iff_getElem?_eq_some]
  constructor
  · rintro (⟨p, new, inAfter, told⟩ | ⟨p, old, inBefore, told⟩)
    · cases inBefore : before[p]? with
      | none => simp_all [statusOf]
      | some old => grind [statusOf]
    · by_cases inAfter : p ∈ after
      · simp [inAfter] at told
      · have absent := Std.ExtTreeMap.getElem?_eq_none inAfter
        grind [statusOf]
  · intro told
    cases inAfter : after[path]? with
    | none =>
      cases inBefore : before[path]? with
      | none => simp [inBefore, inAfter, statusOf] at told
      | some old =>
        have absent : path ∉ after := by
          rw [Std.ExtTreeMap.mem_iff_isSome_getElem?, inAfter]
          exact Bool.false_ne_true
        exact .inr ⟨path, old, inBefore, by grind [statusOf]⟩
    | some new => exact .inl ⟨path, new, inAfter, by grind [statusOf]⟩

theorem arrived_path {entry : String × String} (told : arrived before entry = some change) : change.path = entry.1 := by
  unfold arrived at told
  grind

theorem gone_path {entry : String × String} (told : gone after entry = some change) :
    change.path = entry.1 ∧ entry.1 ∉ after := by
  unfold gone at told
  grind

theorem diffTrees_strict : (diffTrees before after).Pairwise fun a b => compare a.path b.path = .lt := by
  have keys : ∀ tree : Identities, tree.toList.Pairwise fun a b => a.1 ≠ b.1 := fun tree =>
    Std.ExtTreeMap.distinct_keys_toList.imp fun apart same => apart (by simp [same])
  refine mergeSort_strict (List.pairwise_append.mpr ⟨?_, ?_, ?_⟩)
  · refine List.pairwise_filterMap.mpr ((keys after).imp fun apart c told c' told' same => apart ?_)
    rw [← arrived_path told, ← arrived_path told', same]
  · refine List.pairwise_filterMap.mpr ((keys before).imp fun apart c told c' told' same => apart ?_)
    rw [← (gone_path told).1, ← (gone_path told').1, same]
  · intro c arrives c' goes same
    obtain ⟨entry, member, told⟩ := List.mem_filterMap.mp arrives
    obtain ⟨entry', _, told'⟩ := List.mem_filterMap.mp goes
    refine (gone_path told').2 ?_
    rw [← (gone_path told').1, ← same, arrived_path told]
    exact Std.ExtTreeMap.mem_iff_isSome_getElem?.mpr (by
      rw [Std.ExtTreeMap.mem_toList_iff_getElem?_eq_some.mp member]
      rfl)

/-! ## A snapshot and the one before it -/

/-- The stream's snapshot before one. -/
def previous (db : SnapshotDb η) (s : Snapshot η) : Option Nat :=
  (db.snapshots.filter fun t => t.streamId = s.streamId ∧ t.id < s.id).getLast?.map (·.id)

/-- The rows the stream had before a snapshot. -/
def earlier (db : SnapshotDb η) (s : Snapshot η) : List FileSnapshot :=
  db.files.filter fun row => row.streamId = s.streamId ∧ under row < s.id

/-- The rows recorded under it. -/
def recorded (db : SnapshotDb η) (s : Snapshot η) : List FileSnapshot := db.files.filter (·.snapshotId = some s.id)

theorem Rows.snapshot_unique (kept : Rows db) (inA : a ∈ db.snapshots) (inB : b ∈ db.snapshots) (same : a.id = b.id) : a = b := by
  have left := kept.snapshot?_of_mem inA
  rw [same, kept.snapshot?_of_mem inB] at left
  exact (Option.some.inj left).symm

theorem Rows.mem_recorded (kept : Rows db) (member : s ∈ db.snapshots) :
    row ∈ recorded db s ↔ row ∈ db.files ∧ row.streamId = s.streamId ∧ under row = s.id := by
  rw [recorded, List.mem_filter]
  constructor
  · rintro ⟨inside, same⟩
    have own := of_decide_eq_true same
    obtain ⟨t, inT, at_, stream⟩ := kept.filed row inside
    have : t = s := kept.snapshot_unique inT member (Option.some.inj (at_.symm.trans own))
    exact ⟨inside, this ▸ stream, by simp [under, own]⟩
  · rintro ⟨inside, _, same⟩
    exact ⟨inside, decide_eq_true (by rw [kept.under_eq inside, same])⟩

theorem Rows.rowsUpTo_recorded (kept : Rows db) (member : s ∈ db.snapshots) :
    db.rowsUpTo s.streamId s.id = earlier db s ++ recorded db s := by
  have ordered : db.files.Pairwise fun x y => decide (s.id ≤ under x) = true → decide (s.id ≤ under y) = true :=
    kept.filesUp.imp fun up => by simpa using fun late => late.trans up.2.1
  rw [kept.rowsUpTo_eq, Overlay.filter_split _ ordered]
  congr 1
  · refine List.filter_congr fun row _ => ?_
    rw [Bool.eq_iff_iff]
    simp only [Bool.and_eq_true, decide_eq_true_eq, Bool.not_eq_true', decide_eq_false_iff_not]
    omega
  · refine List.filter_congr fun row inside => ?_
    have own : row ∈ recorded db s ↔ row ∈ db.files ∧ row.streamId = s.streamId ∧ under row = s.id := kept.mem_recorded member
    have at_ : row.snapshotId = some s.id ↔ row.streamId = s.streamId ∧ under row = s.id := by
      simpa [recorded, inside] using own
    rw [Bool.eq_iff_iff]
    simp only [Bool.and_eq_true, decide_eq_true_eq, at_]
    omega

theorem le_of_getLast? {items : List (Snapshot η)} (up : items.Pairwise fun x y => x.id < y.id) (last : items.getLast? = some b)
    (member : a ∈ items) : a.id ≤ b.id := by
  obtain ⟨init, rfl⟩ := List.getLast?_eq_some_iff.mp last
  rcases List.mem_append.mp member with inside | inside
  · exact ((List.pairwise_append.mp up).2.2 a inside b List.mem_cons_self).le
  · obtain rfl := List.mem_singleton.mp inside
    exact le_rfl

/-- The tree before a snapshot is what its stream's earlier rows leave. -/
theorem Rows.getElem?_treeFrom (kept : Rows db) :
    (db.treeFrom (previous db s))[path]? = Overlay.lay FileSnapshot.path entryOf (fun _ => none) (earlier db s) path := by
  have listed : ∀ row ∈ earlier db s, ∃ t ∈ db.snapshots.filter fun t => t.streamId = s.streamId ∧ t.id < s.id, under row = t.id := by
    intro row member
    obtain ⟨inside, own⟩ := List.mem_filter.mp member
    obtain ⟨t, inT, at_, stream⟩ := kept.filed row inside
    have same : under row = t.id := by simp [under, at_]
    refine ⟨t, List.mem_filter.mpr ⟨inT, ?_⟩, same⟩
    have bounds := of_decide_eq_true own
    exact decide_eq_true ⟨stream ▸ bounds.1, same ▸ bounds.2⟩
  cases last : (db.snapshots.filter fun t => t.streamId = s.streamId ∧ t.id < s.id).getLast? with
  | none =>
    have nothing := List.getLast?_eq_none_iff.mp last
    have empty : earlier db s = [] := by
      refine List.eq_nil_iff_forall_not_mem.mpr fun row member => ?_
      obtain ⟨t, inT, _⟩ := listed row member
      exact List.not_mem_nil (nothing ▸ inT)
    rw [previous, last, empty]
    exact Std.ExtTreeMap.getElem?_empty
  | some t =>
    obtain ⟨inside, own⟩ := List.mem_filter.mp (List.mem_of_getLast? last)
    have bounds := of_decide_eq_true own
    have up : (db.snapshots.filter fun t => t.streamId = s.streamId ∧ t.id < s.id).Pairwise fun x y => x.id < y.id :=
      kept.snapshotsUp.sublist List.filter_sublist
    have rows : db.rowsUpTo t.streamId t.id = earlier db s := by
      rw [kept.rowsUpTo_eq, bounds.1]
      refine List.filter_congr fun row member => ?_
      rw [Bool.eq_iff_iff]
      simp only [Bool.and_eq_true, decide_eq_true_eq]
      refine ⟨fun holds => ⟨holds.1, holds.2.trans_lt bounds.2⟩, fun holds => ⟨holds.1, ?_⟩⟩
      obtain ⟨t', inT', same⟩ := listed row (List.mem_filter.mpr ⟨member, decide_eq_true holds⟩)
      exact same ▸ le_of_getLast? up last inT'
    rw [previous, last]
    exact rows ▸ kept.getElem?_treeAt inside

/-- A snapshot's tree is what its rows leave over the one before. -/
theorem Rows.getElem?_treeAt_recorded (kept : Rows db) (member : s ∈ db.snapshots) :
    (db.treeAt s.id)[path]? =
      Overlay.lay FileSnapshot.path entryOf ((db.treeFrom (previous db s))[·]?) (recorded db s) path := by
  have below : (fun p => (db.treeFrom (previous db s))[p]?) =
      Overlay.lay FileSnapshot.path entryOf (fun _ => none) (earlier db s) := funext fun p => kept.getElem?_treeFrom
  rw [kept.getElem?_treeAt member, kept.rowsUpTo_recorded member, Overlay.lay_append, below]

theorem Rows.recorded_distinct (kept : Rows db) : (recorded db s).Pairwise fun x y => x.path ≠ y.path := by
  have up := kept.filesUp.sublist (List.filter_sublist (p := fun row => decide (row.snapshotId = some s.id)))
  refine up.imp_of_mem fun {x y} inX inY up => up.2.2 ?_
  have left := of_decide_eq_true (List.mem_filter.mp inX).2
  have right := of_decide_eq_true (List.mem_filter.mp inY).2
  rw [under, under, left, right]

/-- The row before one that a snapshot recorded is the last of its path before the snapshot. -/
theorem Rows.prior_eq (kept : Rows db) (member : s ∈ db.snapshots) (inside : row ∈ recorded db s) :
    db.prior row = Overlay.newest FileSnapshot.path (earlier db s) row.path := by
  obtain ⟨inRows, stream, at_⟩ := (kept.mem_recorded member).mp inside
  have order : ∀ other ∈ db.files, other.path = row.path → (other.id < row.id ↔ under other < s.id) := by
    obtain ⟨early, late, shape⟩ := List.append_of_mem inRows
    have pairs := List.pairwise_append.mp (shape ▸ kept.filesUp)
    intro other member same
    rw [shape, List.mem_append, List.mem_cons] at member
    rcases member with member | rfl | member
    · have up := pairs.2.2 other member row List.mem_cons_self
      refine ⟨fun _ => ?_, fun _ => up.1⟩
      rw [← at_]
      exact lt_of_le_of_ne up.2.1 fun together => up.2.2 together same
    · omega
    · have up := List.rel_of_pairwise_cons pairs.2.1 member
      omega
  rw [prior, Overlay.head?_mergeSort]
  · rw [Overlay.newest, earlier, List.filter_filter]
    congr 1
    refine List.filter_congr fun other member => ?_
    rw [Bool.eq_iff_iff]
    simp only [Bool.and_eq_true, decide_eq_true_eq]
    constructor
    · rintro ⟨own, same, less⟩
      exact ⟨same, own.trans stream, (order other member same).mp less⟩
    · rintro ⟨same, own, less⟩
      exact ⟨own.trans stream.symm, same, (order other member same).mpr less⟩
  · refine List.Pairwise.sublist List.filter_sublist (kept.filesUp.imp fun up => ?_)
    simpa using up.1
  · intro x y z
    simp only [decide_eq_true_eq]
    omega
  · intro x y
    simp only [Bool.or_eq_true, decide_eq_true_eq]
    omega

/-- Where content is told, SQL and the tree tell it alike. -/
theorem ident_eq (told : row.Told) (stored : row.storedHash = row.contentHash) (live : row.storage ≠ .deleted) :
    row.ident = some row.toEntry.identity := by
  simp only [FileSnapshot.ident, FileSnapshot.toEntry, TreeEntry.identity]
  cases hash : row.contentHash with
  | some hash => rfl
  | none =>
    cases class_ : row.storage with
    | oxplow => simp_all [FileSnapshot.Told, FileSnapshot.storedHash]
    | git =>
      obtain ⟨oid, address⟩ : ∃ oid, row.blobHash = some oid := Option.isSome_iff_exists.mp (by simpa [FileSnapshot.Told, class_, hash] using told)
      simp [address]
    | oversize => rfl
    | deleted => exact absurd class_ live

/-- A row is classified as the content it replaces and its own differ. -/
theorem Rows.kind_eq (kept : Rows db) (member : s ∈ db.snapshots) (inside : row ∈ recorded db s) :
    db.kind row = statusOf (identities (db.treeFrom (previous db s)))[row.path]? (identities (db.treeAt s.id))[row.path]? := by
  have inRows : row ∈ db.files := (List.mem_filter.mp inside).1
  have told := kept.told row inRows
  have own : Overlay.newest FileSnapshot.path (recorded db s) row.path = some row :=
    Overlay.newest_of_distinct kept.recorded_distinct inside
  rw [getElem?_identities, getElem?_identities, kept.getElem?_treeAt_recorded member, kept.getElem?_treeFrom, Overlay.lay, Overlay.lay,
    own, kind, kept.prior_eq member inside]
  cases found : Overlay.newest FileSnapshot.path (earlier db s) row.path with
  | none => by_cases gone : row.storage = .deleted <;> simp [gone, entryOf, statusOf]
  | some old =>
    have toldOld := kept.told old (List.mem_filter.mp (Overlay.newest_mem found).1).1
    by_cases gone : row.storage = .deleted
    · by_cases was : old.storage = .deleted <;> simp [gone, was, entryOf, statusOf]
    · by_cases was : old.storage = .deleted
      · simp [gone, was, entryOf, statusOf]
      · have new := ident_eq told.1 told.2 gone
        have before := ident_eq toldOld.1 toldOld.2 was
        by_cases same : row.toEntry.identity = old.toEntry.identity <;>
          simp [gone, was, entryOf, statusOf, new, before, same, eq_comm]

theorem mem_changes {change : FileChange} {snapshotId : Nat} :
    change ∈ (db.listChangesForSnapshot snapshotId).map SnapshotChangeEntry.toChange ↔
      ∃ row ∈ db.files, row.snapshotId = some snapshotId ∧ row.path = change.path ∧ db.kind row = some change.status := by
  simp only [listChangesForSnapshot, changeEntry, List.mem_map, List.mem_mergeSort, List.mem_filterMap, List.mem_filter, decide_eq_true_eq,
    Option.map_eq_some_iff]
  constructor
  · rintro ⟨entry, ⟨row, ⟨inside, at_⟩, status, told, rfl⟩, rfl⟩
    exact ⟨row, inside, at_, rfl, told⟩
  · rintro ⟨row, inside, at_, same, told⟩
    exact ⟨_, ⟨row, ⟨inside, at_⟩, change.status, told, rfl⟩, by rw [SnapshotChangeEntry.toChange, same]⟩

theorem Rows.changes_strict (kept : Rows db) :
    ((db.listChangesForSnapshot s.id).map SnapshotChangeEntry.toChange).Pairwise fun x y => compare x.path y.path = .lt := by
  have named : ∀ row entry, db.changeEntry row = some entry → entry.toChange.path = row.path := by
    intro row entry told
    obtain ⟨_, _, rfl⟩ := Option.map_eq_some_iff.mp told
    rfl
  refine List.pairwise_map.mpr (mergeSort_strict (List.pairwise_filterMap.mpr ?_))
  refine kept.recorded_distinct.imp fun apart entry told entry' told' same => apart ?_
  rw [← named _ _ told, ← named _ _ told', same]

/-- The changes listed of a snapshot are the differences from the snapshot before it. -/
theorem Rows.changes_eq (kept : Rows db) (member : s ∈ db.snapshots) :
    (db.listChangesForSnapshot s.id).map SnapshotChangeEntry.toChange = db.diffSnapshots (previous db s) s.id := by
  have asymm : Std.Antisymm fun x y : FileChange => compare x.path y.path = .lt :=
    ⟨fun x y less more => absurd more (Std.OrientedCmp.not_lt_of_lt less)⟩
  have irrefl : Std.Irrefl fun x y : FileChange => compare x.path y.path = .lt := ⟨fun x => by simp⟩
  refine List.Pairwise.eq_of_mem_iff kept.changes_strict diffTrees_strict fun change => ?_
  rw [mem_changes, diffSnapshots, mem_diffTrees]
  constructor
  · rintro ⟨row, inside, at_, same, told⟩
    have listed : row ∈ recorded db s := List.mem_filter.mpr ⟨inside, decide_eq_true at_⟩
    rw [← same, ← kept.kind_eq member listed, told]
  · intro told
    cases found : Overlay.newest FileSnapshot.path (recorded db s) change.path with
    | none =>
      -- A path with no row of its own is as it was.
      have unmoved : (db.treeAt s.id)[change.path]? = (db.treeFrom (previous db s))[change.path]? := by
        rw [kept.getElem?_treeAt_recorded member, Overlay.lay, found]
        rfl
      rw [getElem?_identities, getElem?_identities, unmoved, statusOf_self] at told
      exact absurd told (Option.some_ne_none _).symm
    | some row =>
      obtain ⟨listed, same⟩ := Overlay.newest_mem found
      refine ⟨row, (List.mem_filter.mp listed).1, of_decide_eq_true (List.mem_filter.mp listed).2, same, ?_⟩
      rw [kept.kind_eq member listed, same, told]

end Oxplow.Proofs.SnapshotReads
