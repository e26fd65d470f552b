import Oxplow.Library.Ordered
import Oxplow.Tasks.TaskStore

/-! The order of the lists, and what placing a task makes of it. -/

namespace Oxplow.Proofs.TaskPlaces
open Tasks Library

variable {db : TaskDb} {id : Nat} {thread : Option Nat}

/-! ## Rows -/

/-- Each row is one task's, and no two live tasks of a list have one place. -/
structure Rows (db : TaskDb) : Prop where
  ids : (db.tasks.map Task.id).Nodup
  apart : ∀ a ∈ db.tasks, ∀ b ∈ db.tasks, a.live → b.live → a.threadId = b.threadId → a.sortIndex = b.sortIndex → a = b

theorem Rows.same (rows : Rows db) {a b : Task} (inA : a ∈ db.tasks) (inB : b ∈ db.tasks) (ids : a.id = b.id) : a = b :=
  List.inj_on_of_nodup_map rows.ids inA inB ids

variable {task : Task}

theorem mem_of_getTaskTx (found : db.getTaskTx id = some task) : task ∈ db.tasks ∧ task.id = id ∧ task.live = true := by
  have is := List.find?_some found
  simp only [Bool.and_eq_true, beq_iff_eq] at is
  exact ⟨List.mem_of_find?_eq_some found, is⟩

theorem Rows.getTaskTx (rows : Rows db) (member : task ∈ db.tasks) (live : task.live = true) :
    db.getTaskTx task.id = some task := by
  cases found : db.getTaskTx task.id with
  | none =>
    have absent := List.find?_eq_none.mp found task member
    simp [live] at absent
  | some other =>
    obtain ⟨inside, own, _⟩ := mem_of_getTaskTx found
    rw [rows.same inside member own]

/-- A change of the rows that leaves who they are changes the tasks read. -/
theorem getTaskTx_map {f : Task → Task} (own : ∀ row, (f row).id = row.id) (lives : ∀ row, (f row).live = row.live) :
    TaskDb.getTaskTx { db with tasks := db.tasks.map f } id = (db.getTaskTx id).map f := by
  simp only [TaskDb.getTaskTx, List.find?_map, Function.comp_def, own, lives]

/-! ## Lists -/

def rank (db : TaskDb) (id : Nat) : Int := ((db.getTaskTx id).map Task.sortIndex).getD 0

theorem Rows.rank (rows : Rows db) (member : task ∈ db.tasks) (live : task.live = true) : rank db task.id = task.sortIndex := by
  rw [TaskPlaces.rank, rows.getTaskTx member live, Option.map_some, Option.getD_some]

theorem onList_iff : TaskDb.onList thread task = true ↔ task.threadId = thread ∧ task.live = true := by
  simp [TaskDb.onList]

theorem mem_listIdsTx : id ∈ db.listIdsTx thread ↔ ∃ task ∈ db.tasks, task.id = id ∧ task.threadId = thread ∧ task.live = true := by
  simp only [TaskDb.listIdsTx, List.mem_map, List.mem_insertionSort, List.mem_filter, onList_iff]
  exact ⟨fun ⟨task, ⟨member, on⟩, own⟩ => ⟨task, member, own, on⟩, fun ⟨task, member, own, on⟩ => ⟨task, ⟨member, on⟩, own⟩⟩

instance : Std.Total TaskDb.Comes := ⟨fun a b => by simp only [TaskDb.Comes]; omega⟩

instance : IsTrans Task TaskDb.Comes := ⟨fun a b c => by simp only [TaskDb.Comes]; omega⟩

theorem Rows.distinct (rows : Rows db) : (db.listIdsTx thread).Nodup := by
  have perm := List.perm_insertionSort TaskDb.Comes (db.tasks.filter (TaskDb.onList thread))
  refine (perm.map Task.id).nodup_iff.mpr ?_
  exact rows.ids.sublist (List.filter_sublist.map Task.id)

/-- A list's tasks come in the order of their places. -/
theorem Rows.ordered (rows : Rows db) : (db.listIdsTx thread).Pairwise fun a b => TaskPlaces.rank db a < TaskPlaces.rank db b := by
  have sorted := List.pairwise_insertionSort TaskDb.Comes (db.tasks.filter (TaskDb.onList thread))
  have distinct : ((db.tasks.filter (TaskDb.onList thread)).insertionSort TaskDb.Comes).Nodup :=
    List.Nodup.of_map Task.id rows.distinct
  apply List.pairwise_map.mpr
  refine (sorted.and distinct).imp_of_mem ?_
  intro a b inA inB both
  obtain ⟨memberA, onA⟩ := List.mem_filter.mp ((List.mem_insertionSort TaskDb.Comes).mp inA)
  obtain ⟨memberB, onB⟩ := List.mem_filter.mp ((List.mem_insertionSort TaskDb.Comes).mp inB)
  obtain ⟨threadA, liveA⟩ := onList_iff.mp onA
  obtain ⟨threadB, liveB⟩ := onList_iff.mp onB
  rw [rows.rank memberA liveA, rows.rank memberB liveB]
  rcases both.1 with less | same
  · exact less
  · exact absurd (rows.apart a memberA b memberB liveA liveB (threadA.trans threadB.symm) same.1) both.2

/-- What has a list's tasks in the order of their places is the list. -/
theorem Rows.listIdsTx (rows : Rows db) {list : List Nat} (members : ∀ id, id ∈ list ↔ id ∈ db.listIdsTx thread)
    (ordered : list.Pairwise fun a b => TaskPlaces.rank db a < TaskPlaces.rank db b) : db.listIdsTx thread = list := by
  refine eq_of_strictly_ordered (fun a b less => ?_) rows.ordered ordered ?_
  · omega
  · exact fun id => (members id).symm

/-! ## Numbering -/

/-- A row as numbering a list leaves it. -/
def renumbered (id : Nat) (items : List (Nat × Nat)) (row : Task) : Task :=
  items.foldl (fun row item => if item.1 ≠ id ∧ row.id = item.1 then { row with sortIndex := (item.2 : Int) } else row) row

theorem renumbered_fields (id : Nat) (items : List (Nat × Nat)) (row : Task) :
    renumbered id items row = { row with sortIndex := (renumbered id items row).sortIndex } := by
  induction items generalizing row with
  | nil => rfl
  | cons item items ih =>
    simp only [renumbered, List.foldl_cons] at ih ⊢
    split
    · exact ih _
    · exact ih _

theorem renumbered_other {items : List (Nat × Nat)} {row : Task} (absent : row.id = id ∨ row.id ∉ items.map (·.1)) :
    renumbered id items row = row := by
  induction items with
  | nil => rfl
  | cons item items ih =>
    have skipped : ¬ (item.1 ≠ id ∧ row.id = item.1) := by
      rintro ⟨other, own⟩
      rcases absent with same | absent
      · exact other (own.symm.trans same)
      · exact absent (by simp [own])
    simp only [renumbered, List.foldl_cons, if_neg skipped]
    exact ih (absent.imp_right fun out inside => out (by simp [inside]))

theorem renumbered_own {items : List (Nat × Nat)} {row : Task} {i : Nat} (distinct : (items.map (·.1)).Nodup) (other : row.id ≠ id)
    (member : (row.id, i) ∈ items) : (renumbered id items row).sortIndex = i := by
  induction items generalizing row with
  | nil => cases member
  | cons item items ih =>
    obtain ⟨fresh, rest⟩ := List.nodup_cons.mp distinct
    simp only [renumbered, List.foldl_cons]
    rcases List.mem_cons.mp member with rfl | inside
    · rw [if_pos ⟨other, rfl⟩]
      have done : renumbered id items { row with sortIndex := (i : Int) } = _ := renumbered_other (.inr fresh)
      exact congrArg Task.sortIndex done
    · have apart : row.id ≠ item.1 := fun same => fresh (List.mem_map.mpr ⟨_, inside, same⟩)
      rw [if_neg fun both => apart both.2]
      exact ih rest other inside

theorem renumberTx_eq (id : Nat) (items : List (Nat × Nat)) (db : TaskDb) :
    (TaskDb.renumberTx id items db).2 = { db with tasks := db.tasks.map (renumbered id items) } := by
  induction items generalizing db with
  | nil =>
    have still : renumbered id [] = fun row => row := rfl
    simp [TaskDb.renumberTx, still]
  | cons item items ih =>
    obtain ⟨other, i⟩ := item
    by_cases own : other = id
    · simp [TaskDb.renumberTx, own, ih, renumbered]
    · have step : ∀ row : Task, (if TaskDb.misplaced other i row then { row with sortIndex := (i : Int) } else row) =
          if other ≠ id ∧ row.id = other then { row with sortIndex := (i : Int) } else row := by
        intro row
        by_cases its : row.id = other
        · by_cases there : row.sortIndex = i
          · -- A row that is there already is left alone.
            rw [if_neg (by simp [TaskDb.misplaced, there]), if_pos ⟨own, its⟩, ← there]
          · rw [if_pos (by simp [TaskDb.misplaced, its, there]), if_pos ⟨own, its⟩]
        · rw [if_neg (by simp [TaskDb.misplaced, its]), if_neg fun both => its both.2]
      simp only [TaskDb.renumberTx, if_neg own, ih, updateRows, List.map_map, Function.comp_def, step]
      rfl

/-! ## Placing -/

/-- The task itself, placed. -/
def settled (dest : Option Nat) (index now : Nat) (row : Task) : Task :=
  { row with threadId := dest, sortIndex := (index : Int), updatedAt := now }

/-- A row as placing a task leaves it. -/
def placedRow (id : Nat) (dest : Option Nat) (index now : Nat) (items : List (Nat × Nat)) (row : Task) : Task :=
  if row.id = id ∧ row.live = true then settled dest index now row else renumbered id items row

variable {dest : Option Nat} {index now : Nat} {items : List (Nat × Nat)} {item row : Task} {place : Placement Nat}

theorem renumbered_id : (renumbered id items row).id = row.id := by rw [renumbered_fields]

theorem renumbered_live : (renumbered id items row).live = row.live := by
  rw [renumbered_fields]
  rfl

theorem placedRow_id : (placedRow id dest index now items row).id = row.id := by
  unfold placedRow
  split
  · rfl
  · exact renumbered_id

theorem placedRow_live : (placedRow id dest index now items row).live = row.live := by
  unfold placedRow
  split
  · rfl
  · exact renumbered_live

theorem updateTaskTx_renumbered (rows : Rows db) (found : db.getTaskTx id = some item)
    (refers : db.refers { item with threadId := dest } = true) (index now : Nat) (items : List (Nat × Nat)) :
    TaskDb.updateTaskTx { db with tasks := db.tasks.map (renumbered id items) } (settled dest index now item) =
      .ok (1, { db with tasks := db.tasks.map (placedRow id dest index now items) }) := by
  obtain ⟨member, own, live⟩ := mem_of_getTaskTx found
  have there : TaskDb.getTaskTx { db with tasks := db.tasks.map (renumbered id items) } (settled dest index now item).id = some item := by
    rw [getTaskTx_map (fun _ => renumbered_id) (fun _ => renumbered_live)]
    change (db.getTaskTx item.id).map _ = _
    rw [own, found, Option.map_some, renumbered_other (.inl own)]
  have known : TaskDb.refers { db with tasks := db.tasks.map (renumbered id items) } (settled dest index now item) = true := by
    have same : ∀ parent, (db.tasks.map (renumbered id items)).any (·.id == parent) = db.tasks.any (·.id == parent) := by
      intro parent
      simp only [List.any_map, Function.comp_def, renumbered_id]
    simp only [TaskDb.refers, same]
    exact refers
  simp only [TaskDb.updateTaskTx, there, Option.isNone_some, Bool.false_eq_true, if_false, known, if_true, updateRows, List.map_map]
  congr 3
  apply List.map_congr_left
  intro row inside
  simp only [Function.comp_apply, renumbered_id, renumbered_live, placedRow]
  by_cases its : row.id = id ∧ row.live = true
  · have same : row = item := rows.same inside member (its.1.trans own.symm)
    subst same
    rw [renumbered_other (.inl own), if_pos (by simp [settled, live]), if_pos its]
    rfl
  · rw [if_neg its, if_neg (by simpa [settled, own] using its)]

/-- The list a task is put into. -/
def others (db : TaskDb) (id : Nat) (dest : Option Nat) : List Nat := (db.listIdsTx dest).filter (· ≠ id)

def placedDb (db : TaskDb) (id : Nat) (dest : Option Nat) (index now : Nat) : TaskDb :=
  { db with tasks := db.tasks.map (placedRow id dest index now ((others db id dest).insertIdx index id).zipIdx) }

theorem placeTaskTx_found (rows : Rows db) (found : db.getTaskTx id = some item)
    (refers : db.refers { item with threadId := dest } = true) (place : Placement Nat) (now : Nat) :
    ∃ moved : Nat → List Nat, db.placeTaskTx id dest place now =
      (TaskDb.indexOf id (others db id dest) place).map fun index =>
        (⟨settled dest index now item, item.threadId, Placement.whereIs (db.listIdsTx item.threadId) id, moved index⟩,
          placedDb db id dest index now) := by
  refine ⟨fun index => (TaskDb.renumberTx id ((others db id dest).insertIdx index id).zipIdx db).1, ?_⟩
  simp only [TaskDb.placeTaskTx, found]
  change (TaskDb.indexOf id (others db id dest) place).bind _ = _
  cases TaskDb.indexOf id (others db id dest) place with
  | error => rfl
  | ok index =>
    have wrote := updateTaskTx_renumbered rows found refers index now ((others db id dest).insertIdx index id).zipIdx
    rw [← renumberTx_eq] at wrote
    change Except.bind (TaskDb.updateTaskTx _ (settled dest index now item)) _ = _
    rw [show (TaskDb.renumberTx id (((db.listIdsTx dest).filter (· ≠ id)).insertIdx index id).zipIdx db).2.updateTaskTx
      (settled dest index now item) = _ from wrote]
    rfl

/-! ## The lists after placing -/

theorem indexOf_ok {list : List Nat} : TaskDb.indexOf id list place = .ok index ↔ Placement.index? list place = some index := by
  cases place <;> simp only [TaskDb.indexOf] <;> cases found : Placement.index? list _ <;> simp_all [Placement.index?]


/-- The list a task was put into. -/
def joined (db : TaskDb) (id : Nat) (dest : Option Nat) (index : Nat) : List Nat := (others db id dest).insertIdx index id

variable {other : Nat}

theorem mem_others : other ∈ others db id dest ↔ other ∈ db.listIdsTx dest ∧ other ≠ id := by
  simp [others]

theorem mem_joined (inside : index ≤ (others db id dest).length) :
    other ∈ joined db id dest index ↔ other = id ∨ other ∈ db.listIdsTx dest := by
  rw [joined, List.mem_insertIdx inside, mem_others]
  by_cases own : other = id <;> simp [own]

theorem Rows.joined (rows : Rows db) (inside : index ≤ (others db id dest).length) : (joined db id dest index).Nodup := by
  refine (List.perm_insertIdx id (others db id dest) inside).nodup_iff.mpr (List.nodup_cons.mpr ⟨?_, rows.distinct.filter _⟩)
  simp [mem_others]

theorem keys_zipIdx (list : List Nat) : list.zipIdx.map (·.1) = list := by
  simp

/-- A task of the list has the place it stands at. -/
theorem placedRow_onto (rows : Rows db) (inside : index ≤ (others db id dest).length) (member : row ∈ db.tasks) (live : row.live = true)
    (onto : (placedRow id dest index now (joined db id dest index).zipIdx row).threadId = dest) :
    ∃ k : Nat, (joined db id dest index)[k]? = some row.id ∧
      (placedRow id dest index now (joined db id dest index).zipIdx row).sortIndex = (k : Int) := by
  by_cases own : row.id = id
  · refine ⟨index, ?_, ?_⟩
    · rw [own]
      exact List.getElem?_insertIdx_self.trans (if_pos inside)
    · rw [placedRow, if_pos ⟨own, live⟩]
      rfl
  · rw [placedRow, if_neg fun both => own both.1] at onto ⊢
    rw [renumbered_fields] at onto
    have listed : row.id ∈ TaskPlaces.joined db id dest index :=
      (mem_joined inside).mpr (.inr (mem_listIdsTx.mpr ⟨row, member, rfl, onto, live⟩))
    obtain ⟨k, at_⟩ := List.getElem?_of_mem listed
    refine ⟨k, at_, renumbered_own ?_ own (List.mem_zipIdx_iff_getElem?.mpr at_)⟩
    rw [keys_zipIdx]
    exact rows.joined inside

/-- A task of another list is as it was. -/
theorem placedRow_off (rows : Rows db) (inside : index ≤ (others db id dest).length) (member : row ∈ db.tasks) (live : row.live = true)
    (now : Nat) (off : (placedRow id dest index now (joined db id dest index).zipIdx row).threadId ≠ dest) :
    placedRow id dest index now (joined db id dest index).zipIdx row = row ∧ row.id ≠ id := by
  have other : row.id ≠ id := by
    intro own
    rw [placedRow, if_pos ⟨own, live⟩] at off
    exact off rfl
  rw [placedRow, if_neg fun both => other both.1] at off ⊢
  refine ⟨renumbered_other (.inr ?_), other⟩
  rw [keys_zipIdx]
  intro listed
  rw [renumbered_fields] at off
  rcases (mem_joined inside).mp listed with own | on
  · exact other own
  · obtain ⟨task, in_, same, thread, _⟩ := mem_listIdsTx.mp on
    rw [rows.same in_ member same] at thread
    exact off thread

theorem Rows.placed (rows : Rows db) (inside : index ≤ (others db id dest).length) (now : Nat) : Rows (placedDb db id dest index now) := by
  constructor
  · simp only [placedDb, List.map_map, Function.comp_def, placedRow_id]
    exact rows.ids
  · intro a' inA b' inB liveA liveB threads places
    obtain ⟨a, memberA, rfl⟩ := List.mem_map.mp inA
    obtain ⟨b, memberB, rfl⟩ := List.mem_map.mp inB
    rw [placedRow_live] at liveA liveB
    by_cases onto : (placedRow id dest index now (TaskPlaces.joined db id dest index).zipIdx a).threadId = dest
    · -- Both stand at one place of the list.
      obtain ⟨k, atA, placeA⟩ := placedRow_onto rows inside memberA liveA onto
      obtain ⟨l, atB, placeB⟩ := placedRow_onto rows inside memberB liveB (threads.symm.trans onto)
      have same : k = l := by
        have := placeA.symm.trans (places.trans placeB)
        omega
      subst same
      rw [atA, Option.some.injEq] at atB
      rw [rows.same memberA memberB atB]
    · obtain ⟨stillA, _⟩ := placedRow_off rows inside memberA liveA now onto
      obtain ⟨stillB, _⟩ := placedRow_off rows inside memberB liveB now (fun on => onto (threads.trans on))
      change placedRow id dest index now (TaskPlaces.joined db id dest index).zipIdx a =
        placedRow id dest index now (TaskPlaces.joined db id dest index).zipIdx b
      change (placedRow id dest index now (TaskPlaces.joined db id dest index).zipIdx a).threadId =
        (placedRow id dest index now (TaskPlaces.joined db id dest index).zipIdx b).threadId at threads
      change (placedRow id dest index now (TaskPlaces.joined db id dest index).zipIdx a).sortIndex =
        (placedRow id dest index now (TaskPlaces.joined db id dest index).zipIdx b).sortIndex at places
      rw [stillA, stillB] at threads places ⊢
      exact rows.apart a memberA b memberB liveA liveB threads places

theorem mem_placed (inside : index ≤ (others db id dest).length) (rows : Rows db) (found : db.getTaskTx id = some item)
    {thread : Option Nat} :
    other ∈ (placedDb db id dest index now).listIdsTx thread ↔
      if thread = dest then other ∈ joined db id dest index else other ∈ db.listIdsTx thread ∧ other ≠ id := by
  obtain ⟨member, own, live⟩ := mem_of_getTaskTx found
  constructor
  · intro on
    obtain ⟨row', inRow, rfl, threads, lives⟩ := mem_listIdsTx.mp on
    obtain ⟨row, inside_, rfl⟩ := List.mem_map.mp inRow
    rw [placedRow_live] at lives
    rw [placedRow_id]
    split
    next same =>
      obtain ⟨k, at_, _⟩ := placedRow_onto rows inside inside_ lives (threads.trans same)
      exact List.mem_of_getElem? at_
    next differ =>
      obtain ⟨still, apart⟩ := placedRow_off rows inside inside_ lives now (fun on => differ (threads.symm.trans on))
      refine ⟨mem_listIdsTx.mpr ⟨row, inside_, rfl, ?_, lives⟩, apart⟩
      exact (congrArg Task.threadId still).symm.trans threads
  · intro on
    split at on
    next same =>
      subst same
      rcases (mem_joined inside).mp on with rfl | listed
      · refine mem_listIdsTx.mpr ⟨_, List.mem_map_of_mem member, placedRow_id.trans own, ?_, placedRow_live.trans live⟩
        rw [placedRow, if_pos ⟨own, live⟩]
        rfl
      · obtain ⟨row, inRow, rfl, threads, lives⟩ := mem_listIdsTx.mp listed
        refine mem_listIdsTx.mpr ⟨_, List.mem_map_of_mem inRow, placedRow_id, ?_, placedRow_live.trans lives⟩
        rw [placedRow]
        split
        · rfl
        · rw [renumbered_fields]
          exact threads
    next differ =>
      obtain ⟨row, inRow, rfl, threads, lives⟩ := mem_listIdsTx.mp on.1
      refine mem_listIdsTx.mpr ⟨_, List.mem_map_of_mem inRow, placedRow_id, ?_, placedRow_live.trans lives⟩
      rw [placedRow, if_neg fun both => on.2 both.1, renumbered_fields]
      exact threads

/-- Placing a task moves it alone. -/
theorem listIdsTx_placed (inside : index ≤ (others db id dest).length) (rows : Rows db) (found : db.getTaskTx id = some item)
    (thread : Option Nat) : (placedDb db id dest index now).listIdsTx thread =
      if thread = dest then joined db id dest index else others db id thread := by
  have after := rows.placed inside now
  apply after.listIdsTx
  · intro other
    rw [mem_placed inside rows found]
    split
    · rfl
    · exact mem_others
  · have stands : ∀ row ∈ db.tasks, row.live = true →
        rank (placedDb db id dest index now) row.id = (placedRow id dest index now (joined db id dest index).zipIdx row).sortIndex := by
      intro row member live
      have is := after.rank (List.mem_map_of_mem (f := placedRow id dest index now (joined db id dest index).zipIdx) member)
        (placedRow_live.trans live)
      rw [placedRow_id] at is
      exact is
    obtain ⟨memberItem, own, liveItem⟩ := mem_of_getTaskTx found
    split
    next same =>
      -- A task's place is where it stands.
      have places : ∀ (k other : Nat), (joined db id dest index)[k]? = some other → rank (placedDb db id dest index now) other = (k : Int) := by
        intro k other at_
        have task : ∃ row ∈ db.tasks, row.id = other ∧ row.live = true ∧
            (placedRow id dest index now (joined db id dest index).zipIdx row).threadId = dest := by
          rcases (mem_joined inside).mp (List.mem_of_getElem? at_) with rfl | listed
          · refine ⟨item, memberItem, own, liveItem, ?_⟩
            rw [placedRow, if_pos ⟨own, liveItem⟩]
            rfl
          · obtain ⟨row, inRow, is, threads, lives⟩ := mem_listIdsTx.mp listed
            refine ⟨row, inRow, is, lives, ?_⟩
            rw [placedRow]
            split
            · rfl
            · rw [renumbered_fields]
              exact threads
        obtain ⟨row, inRow, rfl, lives, threads⟩ := task
        obtain ⟨l, stood, place⟩ := placedRow_onto rows inside inRow lives threads
        have here := (List.getElem?_inj (List.getElem?_eq_some_iff.mp at_).1 (rows.joined inside)).mp (at_.trans stood.symm)
        rw [stands row inRow lives, place, here]
      apply List.pairwise_iff_getElem.mpr
      intro i j hi hj less
      rw [places i _ (List.getElem?_eq_getElem hi), places j _ (List.getElem?_eq_getElem hj)]
      exact_mod_cast less
    next differ =>
      have before : (others db id thread).Pairwise fun a b => rank db a < rank db b := rows.ordered.sublist List.filter_sublist
      refine before.imp_of_mem ?_
      intro a b inA inB less
      have still : ∀ other ∈ others db id thread, rank (placedDb db id dest index now) other = rank db other := by
        intro other member
        obtain ⟨listed, apart⟩ := mem_others.mp member
        obtain ⟨row, inRow, rfl, threads, lives⟩ := mem_listIdsTx.mp listed
        have off : (placedRow id dest index now (joined db id dest index).zipIdx row).threadId ≠ dest := by
          rw [placedRow, if_neg fun both => apart both.1, renumbered_fields]
          exact fun same => differ (threads.symm.trans same)
        rw [stands row inRow lives, (placedRow_off rows inside inRow lives now off).1, rows.rank inRow lives]
      rw [still a inA, still b inB]
      exact less

end Oxplow.Proofs.TaskPlaces
