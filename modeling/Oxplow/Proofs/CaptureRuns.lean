import Oxplow.Proofs.SnapshotTakes
import Oxplow.Snapshots.SnapshotCapture

/-! No take loses an edit, but for a sweep's reading that grew old, a look-up that fails and a
path that cannot be read: until a take has recorded what is at a path, an event of it is to
come, it is dirty, or a take under way has yet to read it or holds a row that describes it. -/

namespace Oxplow.Proofs.CaptureRuns
open Library Snapshots Snapshots.SnapshotDb SnapshotReads SnapshotTakes

/-! ## What the store has of a path -/

section Store
variable {η : Type} {digest : List (String × String) → η} {db db' : SnapshotDb η} {streamId : Nat} {path : String}

def latestRow (db : SnapshotDb η) (streamId : Nat) (path : String) : Option FileSnapshot :=
  Overlay.newest FileSnapshot.path (db.files.filter (·.streamId = streamId)) path

/-- The content a path was last recorded with; none when it is gone. -/
def recordedContent (db : SnapshotDb η) (streamId : Nat) (path : String) : Option String :=
  ((latestRow db streamId path).bind entryOf).map (·.identity)

theorem getElem?_latestStats (kept : Rows db) {keep : String → Bool} :
    (db.latestStats streamId keep)[path]? = if keep path then (latestRow db streamId path).map (·.toStat) else none := by
  have inOrder : (db.files.filter (·.streamId = streamId)).Pairwise fun a b => a.id < b.id :=
    (kept.filesUp.imp fun up => up.1).sublist List.filter_sublist
  have distinct : ((db.latestRows streamId).filter fun row => keep row.path).Pairwise fun a b => a.path ≠ b.path :=
    (Overlay.tops_distinct inOrder).sublist List.filter_sublist
  have newest : Overlay.newest FileSnapshot.path ((db.latestRows streamId).filter fun row => keep row.path) path =
      if keep path then latestRow db streamId path else none := by
    by_cases kept_ : keep path = true
    · rw [if_pos kept_, Overlay.newest_filter fun row _ same => by rw [same, kept_], latestRows,
        Overlay.newest_tops inOrder fun a b less => Nat.lt_asymm less, latestRow]
    · rw [if_neg kept_]
      refine Overlay.newest_eq_none.mpr fun row member same => kept_ ?_
      exact same ▸ (List.mem_filter.mp member).2
  rw [latestStats, getElem?_ofList_rows distinct, newest]
  split <;> rfl

/-- The stream's tree is its latest rows. -/
theorem treeFrom_current (kept : Kept digest db) :
    (db.treeFrom (db.currentSnapshot streamId))[path]? = (latestRow db streamId path).bind entryOf := by
  rw [kept.currentSnapshot_eq]
  cases last : (db.snapshots.filter (·.streamId = streamId)).getLast? with
  | none =>
    have nothing : db.files.filter (·.streamId = streamId) = [] := by
      refine List.filter_eq_nil_iff.mpr fun row member own => ?_
      obtain ⟨s, inside, _, same⟩ := kept.filed row member
      have listed : s ∈ db.snapshots.filter (·.streamId = streamId) :=
        List.mem_filter.mpr ⟨inside, decide_eq_true (same ▸ of_decide_eq_true own)⟩
      exact List.not_mem_nil (List.getLast?_eq_none_iff.mp last ▸ listed)
    rw [latestRow, nothing]
    exact Std.ExtTreeMap.getElem?_empty
  | some s =>
    obtain ⟨inside, own⟩ := List.mem_filter.mp (List.mem_of_getLast? last)
    have stream : s.streamId = streamId := of_decide_eq_true own
    have up : (db.snapshots.filter (·.streamId = streamId)).Pairwise fun x y => x.id < y.id :=
      kept.snapshotsUp.sublist List.filter_sublist
    have all : db.rowsUpTo s.streamId s.id = db.files.filter (·.streamId = streamId) := by
      rw [kept.rowsUpTo_eq, stream]
      refine List.filter_congr fun row member => ?_
      obtain ⟨t, inT, at_, same⟩ := kept.filed row member
      have earlier : row.streamId = streamId → under row ≤ s.id := fun own => by
        have listed : t ∈ db.snapshots.filter (·.streamId = streamId) := List.mem_filter.mpr ⟨inT, decide_eq_true (same ▸ own)⟩
        simpa [under, at_] using le_of_getLast? up last listed
      by_cases own : row.streamId = streamId <;> simp [own, earlier]
    change (db.treeAt s.id)[path]? = _
    rw [kept.getElem?_treeAt inside, all, Overlay.lay, latestRow]
    cases Overlay.newest FileSnapshot.path (db.files.filter (·.streamId = streamId)) path <;> rfl

theorem recordedContent_eq (kept : Kept digest db) :
    recordedContent db streamId path = (identities (db.treeFrom (db.currentSnapshot streamId)))[path]? := by
  rw [recordedContent, getElem?_identities, treeFrom_current kept]

/-- What a row has once it is stored. -/
def told (row : FileSnapshot) : Option String := (storedEntry row).map (·.identity)

theorem current_taken [DecidableEq η] (kept : Kept digest db) {take : TakeRecord} {outcome : TakeOutcome}
    (injective : Function.Injective digest) (done : db.recordTakeTx digest take (db.readBefore take) = some (outcome, db')) :
    db'.currentSnapshot take.streamId = some outcome.snapshotId := by
  have kept' := (taken_frame kept (readBefore_read kept) injective done).1
  obtain ⟨op, restates, at_, _⟩ | ⟨n, op, makes, at_⟩ := taken kept (readBefore_read kept) injective done
  · rw [kept'.currentSnapshot_eq, restates.snapshots, ← kept.currentSnapshot_eq, restates.found, at_]
  · rw [kept'.currentSnapshot_eq, makes.snapshots, last_concat, if_pos (decide_eq_true makes.stream), at_]
    rfl

/-- A take leaves each path as its row has it, and the others as they were. -/
theorem recordedContent_taken [DecidableEq η] (kept : Kept digest db) {take : TakeRecord} {outcome : TakeOutcome}
    (injective : Function.Injective digest) (done : db.recordTakeTx digest take (db.readBefore take) = some (outcome, db')) :
    recordedContent db' take.streamId path =
      (Overlay.newest FileSnapshot.path take.rows path).elim (recordedContent db take.streamId path) told := by
  have kept' := (taken_frame kept (readBefore_read kept) injective done).1
  rw [recordedContent_eq kept', current_taken kept injective done]
  change (identities (db'.treeAt outcome.snapshotId))[path]? = _
  rw [taken_identities kept (readBefore_read kept) injective done, getElem?_identities, getElem?_overlay, Overlay.lay,
    recordedContent, ← treeFrom_current kept]
  cases Overlay.newest FileSnapshot.path take.rows path <;> rfl

/-- A row's storage and hash fit. -/
def RowFormed (row : FileSnapshot) : Prop := Formed row.storage row.blobHash row.contentHash

theorem formed_taken [DecidableEq η] (kept : Kept digest db) (formed : ∀ row ∈ db.files, RowFormed row) {take : TakeRecord}
    {outcome : TakeOutcome} (injective : Function.Injective digest) (own : ∀ row ∈ take.rows, RowFormed row)
    (done : db.recordTakeTx digest take (db.readBefore take) = some (outcome, db')) : ∀ row ∈ db'.files, RowFormed row := by
  intro row member
  obtain ⟨op, restates, _⟩ | ⟨n, op, makes, _⟩ := taken kept (readBefore_read kept) injective done
  · exact formed row (restates.files ▸ member)
  · rw [makes.files] at member
    rcases List.mem_append.mp member with old | new
    · exact formed row old
    · obtain ⟨i, raw, at_, rfl⟩ := mem_storedRows new
      have fits := own raw (List.mem_of_getElem? at_)
      unfold RowFormed Formed FileSnapshot.storedHash at *
      cases storage : raw.storage <;> simp_all

end Store

/-! ## What is at a path, and what is to come of it -/

section Paths
variable {β η : Type} (capture : SnapshotCapture β η)

/-- The content is the node's. Where there is no regular file there is none. -/
def Describes (content : Option String) : Node β → Prop
  | .file bytes mtimeMs =>
    if capture.maxFileBytes < capture.size bytes then content = some (oversizeIdentity (capture.size bytes) mtimeMs)
    else content = some (capture.hash bytes) ∨ content = some ("git:" ++ capture.idOf bytes)
  | _ => content = none

/-- The latest row of a path describes what is there. -/
def Described (s : Capturing β η) (path : String) : Prop :=
  Describes capture (recordedContent s.db capture.streamId path) (s.disk path)

def stagedContent (staging : CaptureStaging) : Option String := told (staging.toRow 0 "" 0)

/-- An event of the path is to come, or the next take drains it. -/
def Later (s : Capturing β η) (path : String) : Prop := 0 < s.events path ∨ path ∈ s.dirty

/-- Where the take under way leaves a path. -/
def Standing (s : Capturing β η) (requeued : Bool) (path : String) : Option TakeEntry → Prop
  | none | some .dropped => Described capture s path
  | some (.unstaged _) => True
  | some (.statted sizeBytes mtimeMs) =>
    ∃ bytes, s.disk path = .file bytes mtimeMs ∧ capture.size bytes = sizeBytes ∧ sizeBytes ≤ capture.maxFileBytes
  | some (.row staging) => Describes capture (stagedContent staging) (s.disk path)
  | some (.defer _) => requeued = false

def entryAt (s : Capturing β η) (path : String) : Option TakeEntry := s.take.bind fun take => take.entries[path]?

def Accounted (s : Capturing β η) (path : String) : Prop :=
  Later s path ∨ Standing capture s (s.take.any (·.requeued)) path (entryAt s path)

/-- A step that loses nothing: a drained reading is still what the disk holds, unless another
event of its path is to come; what a failing call or a path that is no file leaves behind
is looked at again, or was not recorded. -/
def Clear (s : Capturing β η) : CaptureStep β → Prop
  | .drain _ => ∀ path entry staging, s.dirty[path]? = some entry → entry.staging = some staging →
      0 < s.events path ∨ Describes capture (stagedContent staging) (s.disk path)
  | .lookup _ ok => ok = true ∨ ∀ path, entryAt s path ≠ none → Later s path
  | .stat path ok =>
      ok = true ∧ (s.disk path = .other → recordedContent s.db capture.streamId path = none) ∨ Later s path
  | .read path ok written =>
      ok = true ∧ (written = true ∨ ∀ take, s.take = some take → take.keepBytes = false) ∨ Later s path
  | _ => True

/-- What the take holds is accounted for, and it works from the latest rows. -/
structure TakeSafe (s : Capturing β η) (take : Take) : Prop where
  accounted : ∀ path ∈ take.entries, Accounted capture s path
  fresh : ∀ latest now, take.latest = some (latest, now) → ∀ (path : String) (entry : TakeEntry), take.entries[path]? = some entry →
    entry.isSettled = false → latest[path]? = (latestRow s.db capture.streamId path).map (·.toStat)
  unread : take.latest = none → ∀ (path : String) sizeBytes mtimeMs, take.entries[path]? ≠ some (TakeEntry.statted sizeBytes mtimeMs)
  settled : take.requeued = true → ∀ (path : String) (entry : TakeEntry), take.entries[path]? = some entry → entry.isSettled = true

structure Safe (s : Capturing β η) : Prop where
  kept : Kept capture.digest s.db
  formed : ∀ row ∈ s.db.files, RowFormed row
  taking : ∀ take, s.take = some take → TakeSafe capture s take

variable {capture} {s next : Capturing β η} {path : String} {take : Take}

theorem entryAt_some (under : s.take = some take) : entryAt s path = take.entries[path]? := by
  rw [entryAt, under]
  rfl

theorem entryAt_none (idle : s.take = none) : entryAt s path = none := by
  rw [entryAt, idle]
  rfl

theorem Standing.frame {requeued : Bool} {entry : Option TakeEntry} (stands : Standing capture s requeued path entry)
    (disk : next.disk path = s.disk path) (db : next.db = s.db) : Standing capture next requeued path entry := by
  have described : Described capture s path → Described capture next path := fun holds => by
    rw [Described, db, disk]
    exact holds
  cases entry with
  | none => exact described stands
  | some entry =>
    cases entry with
    | unstaged _ => trivial
    | statted _ _ =>
      obtain ⟨bytes, there, rest⟩ := stands
      exact ⟨bytes, disk ▸ there, rest⟩
    | row staging =>
      change Describes capture _ (next.disk path)
      rw [disk]
      exact stands
    | defer _ => exact stands
    | dropped => exact described stands

/-- A path stays accounted for where nothing but the dirty set and the events moves. -/
theorem Accounted.frame (accounted : Accounted capture s path) (disk : next.disk path = s.disk path) (db : next.db = s.db)
    (same : next.take = s.take) (later : Later s path → Later next path) : Accounted capture next path := by
  refine accounted.imp later fun stands => ?_
  have entry : entryAt next path = entryAt s path := by rw [entryAt, same, entryAt]
  rw [entry, same]
  exact stands.frame disk db

theorem Safe.frame (safe : Safe capture s) (db : next.db = s.db) (same : next.take = s.take)
    (accounted : ∀ path, Accounted capture s path → Accounted capture next path) : Safe capture next where
  kept := db ▸ safe.kept
  formed := db ▸ safe.formed
  taking := fun take under => by
    have before := safe.taking take (same ▸ under)
    exact ⟨fun path drained => accounted path (before.accounted path drained), db ▸ before.fresh, before.unread, before.settled⟩

/-! ## Where a run starts, and where it settles -/

theorem safe_start (disk : String → Node β) : Safe capture (Capturing.start disk) where
  kept := kept_empty
  formed := fun _ member => absurd member List.not_mem_nil
  taking := fun _ under => absurd under (Option.some_ne_none _).symm

theorem accounted_start {disk : String → Node β} (bare : ∀ bytes mtimeMs, disk path ≠ .file bytes mtimeMs) :
    Accounted capture (Capturing.start disk) path := by
  refine .inr ?_
  change Describes capture none (disk path)
  cases there : disk path with
  | file bytes mtimeMs => exact absurd there (bare bytes mtimeMs)
  | absent | other => rfl

/-- Every event has come, nothing is dirty and no take is under way. -/
structure Settled (s : Capturing β η) (path : String) : Prop where
  delivered : s.events path = 0
  clean : s.dirty.isEmpty = true
  idle : s.take = none

theorem Settled.described (settled : Settled s path) (accounted : Accounted capture s path) : Described capture s path := by
  rw [Accounted, entryAt_none settled.idle] at accounted
  refine accounted.resolve_left fun later => ?_
  rcases later with event | dirty
  · exact absurd settled.delivered event.ne'
  · rw [Std.ExtTreeMap.isEmpty_iff.mp settled.clean] at dirty
    exact Std.ExtTreeMap.not_mem_empty dirty

/-! ## The latest row, as a take looks it up -/

theorem Safe.stored (safe : Safe capture s) {row : FileSnapshot} (latest : latestRow s.db capture.streamId path = some row) :
    row.storedHash = row.contentHash ∧ RowFormed row := by
  have member : row ∈ s.db.files := (List.mem_filter.mp (Overlay.newest_mem latest).1).1
  exact ⟨(safe.kept.told row member).2, safe.formed row member⟩

variable {prior : Option LatestStat}

theorem recorded_gone (looked : prior = (latestRow s.db capture.streamId path).map (·.toStat))
    (gone : prior.all (·.storage = .deleted) = true) : recordedContent s.db capture.streamId path = none := by
  rw [recordedContent]
  cases latest : latestRow s.db capture.streamId path with
  | none => rfl
  | some row =>
    rw [looked, latest] at gone
    have deleted : row.storage = .deleted := of_decide_eq_true gone
    simp [entryOf, deleted]

theorem Safe.recorded_oversize (safe : Safe capture s) {sizeBytes : Int} {mtimeMs : Option Int}
    (looked : prior = (latestRow s.db capture.streamId path).map (·.toStat))
    (same : prior.any (fun stat => stat.storage = .oversize && stat.sizeBytes = sizeBytes && stat.mtimeMs = mtimeMs) = true) :
    recordedContent s.db capture.streamId path = some (oversizeIdentity sizeBytes mtimeMs) := by
  cases latest : latestRow s.db capture.streamId path with
  | none =>
    rw [looked, latest] at same
    exact absurd same Bool.false_ne_true
  | some row =>
    rw [looked, latest] at same
    simp only [Option.map_some, Option.any_some, Bool.and_eq_true, decide_eq_true_eq, FileSnapshot.toStat] at same
    obtain ⟨⟨oversize, size⟩, mtime⟩ := same
    have formed := (safe.stored latest).2
    have unhashed : row.contentHash = none := by simpa [RowFormed, oversize, Formed] using formed
    rw [recordedContent, latest]
    simp [entryOf, oversize, FileSnapshot.toEntry, TreeEntry.identity, unhashed, size, mtime]

theorem Safe.recorded_same (safe : Safe capture s) {bytes : β}
    (looked : prior = (latestRow s.db capture.streamId path).map (·.toStat)) (same : capture.sameContent prior bytes = true) :
    recordedContent s.db capture.streamId path = some (capture.hash bytes) ∨
      recordedContent s.db capture.streamId path = some ("git:" ++ capture.idOf bytes) := by
  cases latest : latestRow s.db capture.streamId path with
  | none =>
    rw [looked, latest] at same
    exact absurd same Bool.false_ne_true
  | some row =>
    obtain ⟨stored, formed⟩ := safe.stored latest
    rw [looked, latest] at same
    simp only [Option.map_some, SnapshotCapture.sameContent, FileSnapshot.toStat, stored] at same
    rw [recordedContent, latest]
    cases hash : row.contentHash with
    | some content =>
      rw [hash] at same
      have alike : content = capture.hash bytes := of_decide_eq_true same
      have live : row.storage ≠ .deleted := fun gone => by simp [RowFormed, gone, Formed, hash] at formed
      exact .inl (by simp [entryOf, live, FileSnapshot.toEntry, TreeEntry.identity, hash, alike])
    | none =>
      rw [hash] at same
      cases storage : row.storage with
      | git =>
        cases address : row.blobHash with
        | none => simp [storage, address] at same
        | some oid =>
          simp only [storage, address, decide_eq_true_eq] at same
          exact .inr (by simp [entryOf, storage, FileSnapshot.toEntry, TreeEntry.identity, hash, address, same])
      | oxplow | oversize | deleted => simp [storage] at same

/-! ## Edits, events and sweeps -/

variable {now : Nat}

theorem mem_markDirty {dirty : DirtySet} {other : String} : path ∈ markDirty dirty other now ↔ other = path ∨ path ∈ dirty := by
  rw [markDirty, Std.ExtTreeMap.mem_insertIfNew, Std.LawfulEqCmp.compare_eq_iff_eq]

theorem accounted_edit (s : Capturing β η) (path : String) (node : Node β) :
    Accounted capture { s with disk := Function.update s.disk path node, events := Function.update s.events path (s.events path + 1) }
      path := by
  refine .inl (.inl ?_)
  simp

theorem Accounted.edit {other : String} {node : Node β} (accounted : Accounted capture s path) :
    Accounted capture { s with disk := Function.update s.disk other node, events := Function.update s.events other (s.events other + 1) }
      path := by
  by_cases same : path = other
  · subst same
    exact accounted_edit s path node
  · refine accounted.frame (Function.update_of_ne same _ _) rfl rfl fun later => ?_
    simpa [Later, same] using later

theorem Accounted.mark {other : String} (accounted : Accounted capture s path) :
    Accounted capture { s with events := Function.update s.events other (s.events other - 1), dirty := markDirty s.dirty other now }
      path := by
  by_cases same : path = other
  · exact .inl (.inr (mem_markDirty.mpr (.inl same.symm)))
  · refine accounted.frame rfl rfl rfl fun later => ?_
    rcases later with event | dirty
    · exact .inl (by simpa [same] using event)
    · exact .inr (mem_markDirty.mpr (.inr dirty))

/-- Each step of a sweep but the last leaves all else as it is. -/
theorem onSweep_eq {index : Nat} {move : Sweep → Option Sweep} (moves : s.onSweep index move = some next) :
    ∃ sweeps, next = { s with sweeps := sweeps } := by
  obtain ⟨sweep, _, rfl⟩ := Option.map_eq_some_iff.mp moves
  exact ⟨_, rfl⟩

theorem Accounted.stage {index : Nat} {other : String} (accounted : Accounted capture s path)
    (moves : s.stage index other now = some next) : Accounted capture next path := by
  simp only [Capturing.stage, Option.bind_eq_bind, Option.bind_eq_some_iff] at moves
  obtain ⟨sweep, _, staging, _, _, _, made⟩ := moves
  obtain rfl := Option.some.inj made
  refine accounted.frame rfl rfl rfl fun later => later.imp id fun dirty => ?_
  exact Std.ExtTreeMap.mem_insert.mpr (.inr dirty)

theorem stage_frame {index : Nat} {other : String} (moves : s.stage index other now = some next) :
    next.db = s.db ∧ next.take = s.take := by
  simp only [Capturing.stage, Option.bind_eq_bind, Option.bind_eq_some_iff] at moves
  obtain ⟨sweep, _, staging, _, _, _, made⟩ := moves
  obtain rfl := Option.some.inj made
  exact ⟨rfl, rfl⟩

/-! ## Takes -/

theorem Accounted.drain {keepBytes : Bool} (accounted : Accounted capture s path) (idle : s.take = none)
    (clear : Clear capture s (.drain keepBytes)) : Accounted capture (s.drain keepBytes) path := by
  have entry : entryAt (s.drain keepBytes) path = s.dirty[path]?.map TakeEntry.ofDirty := Std.ExtTreeMap.getElem?_map
  rw [Accounted, entry]
  cases dirty : s.dirty[path]? with
  | none =>
    have undirty : path ∉ s.dirty := fun member => by simp [Std.ExtTreeMap.getElem?_eq_some_getElem member] at dirty
    rw [Accounted, entryAt_none idle] at accounted
    exact accounted.imp (fun later => .inl (later.resolve_right undirty)) fun described => described
  | some heard =>
    cases staged : heard.staging with
    | none =>
      have unstaged : TakeEntry.ofDirty heard = .unstaged heard := by rw [TakeEntry.ofDirty, staged]
      rw [Option.map_some, unstaged]
      exact .inr trivial
    | some staging =>
      have row : TakeEntry.ofDirty heard = .row staging := by rw [TakeEntry.ofDirty, staged]
      rw [Option.map_some, row]
      exact (clear path heard staging dirty staged).imp .inl fun describes => describes

theorem ofDirty_unread (heard : DirtyEntry) (sizeBytes : Nat) (mtimeMs : Option Int) :
    TakeEntry.ofDirty heard ≠ .statted sizeBytes mtimeMs := by
  rw [TakeEntry.ofDirty]
  split <;> exact TakeEntry.noConfusion

theorem Safe.drain {keepBytes : Bool} (safe : Safe capture s) (idle : s.take = none)
    (clear : Clear capture s (.drain keepBytes)) : Safe capture (s.drain keepBytes) where
  kept := safe.kept
  formed := safe.formed
  taking := by
    intro take under
    obtain rfl := Option.some.inj under
    have nothing : s.dirty.isEmpty = true → ∀ (path : String) (entry : TakeEntry),
        (s.dirty.map fun _ heard => TakeEntry.ofDirty heard)[path]? ≠ some entry := by
      intro empty path entry
      rw [Std.ExtTreeMap.isEmpty_iff.mp empty, Std.ExtTreeMap.getElem?_map]
      simp
    refine ⟨?_, ?_, ?_, fun empty path entry there => absurd there (nothing empty path entry)⟩
    · intro path drained
      have dirty : path ∈ s.dirty := Std.ExtTreeMap.mem_map.mp drained
      exact Accounted.drain (.inl (.inr dirty)) idle clear
    · intro latest now looked path entry there
      split at looked
      · exact absurd there (nothing ‹_› path entry)
      · exact absurd looked (Option.some_ne_none _).symm
    · intro _ path sizeBytes mtimeMs there
      rw [Std.ExtTreeMap.getElem?_map] at there
      obtain ⟨heard, _, same⟩ := Option.map_eq_some_iff.mp there
      exact ofDirty_unread heard sizeBytes mtimeMs same

theorem mem_entries {entry : TakeEntry} (there : take.entries[path]? = some entry) : path ∈ take.entries :=
  Std.ExtTreeMap.mem_iff_isSome_getElem?.mpr (by rw [there]; rfl)

theorem Accounted.lookup {latest : LatestStats × Nat} (accounted : Accounted capture s path) (under : s.take = some take) :
    Accounted capture { s with take := some { take with latest := some latest } } path := by
  rw [Accounted, under, entryAt_some under] at accounted
  exact accounted.imp id fun stands => stands.frame rfl rfl

theorem Safe.lookup (safe : Safe capture s) (under : s.take = some take) (unasked : take.latest = none) :
    Safe capture { s with
      take := some { take with latest := some (s.db.latestStats capture.streamId take.lookedAt, now) } } where
  kept := safe.kept
  formed := safe.formed
  taking := by
    intro take' under'
    obtain rfl := Option.some.inj under'
    have before := safe.taking take under
    refine ⟨fun path drained => (before.accounted path drained).lookup under, ?_, fun none_ => absurd none_ (Option.some_ne_none _),
      before.settled⟩
    intro latest at_ looked path entry there open_
    obtain ⟨rfl, rfl⟩ := Prod.mk.inj (Option.some.inj looked)
    rw [getElem?_latestStats safe.kept.toRows, if_pos]
    cases entry with
    | unstaged _ =>
      rw [Take.lookedAt, there]
      rfl
    | statted sizeBytes mtimeMs => exact absurd there (before.unread unasked path sizeBytes mtimeMs)
    | row _ | defer _ | dropped => exact absurd open_ Bool.noConfusion

/-- A take that gives up loses no path that is looked at again. -/
theorem Accounted.give_up (accounted : Accounted capture s path) (later : entryAt s path ≠ none → Later s path) :
    Accounted capture { s with take := none } path := by
  by_cases there : entryAt s path = none
  · rw [Accounted, there] at accounted
    exact accounted.imp id fun described => described
  · exact .inl (later there)

/-- One path of the take moves on. -/
theorem Accounted.moved {other : String} {entry : TakeEntry} (accounted : Accounted capture s path) (under : s.take = some take)
    (moved : Later s other ∨ Standing capture s take.requeued other (some entry)) :
    Accounted capture { s with take := some { take with entries := take.entries.insert other entry } } path := by
  rw [Accounted, entryAt]
  change _ ∨ Standing capture _ take.requeued path (take.entries.insert other entry)[path]?
  by_cases same : other = path
  · subst same
    rw [Std.ExtTreeMap.getElem?_insert_self]
    exact moved.imp id fun stands => stands.frame rfl rfl
  · rw [Accounted, under, entryAt_some under] at accounted
    rw [Std.ExtTreeMap.getElem?_insert, if_neg fun alike => same (Std.LawfulEqCmp.eq_of_compare alike)]
    exact accounted.imp id fun stands => stands.frame rfl rfl

theorem Safe.moved {other : String} {before entry : TakeEntry} {looked : LatestStats × Nat} (safe : Safe capture s)
    (under : s.take = some take) (asked : take.latest = some looked) (there : take.entries[other]? = some before)
    (open_ : before.isSettled = false)
    (moved : Later s other ∨ Standing capture s take.requeued other (some entry)) :
    Safe capture { s with take := some { take with entries := take.entries.insert other entry } } where
  kept := safe.kept
  formed := safe.formed
  taking := by
    intro take' under'
    obtain rfl := Option.some.inj under'
    have sound := safe.taking take under
    have entryOf : ∀ (path : String) (later : TakeEntry), (take.entries.insert other entry)[path]? = some later →
        other = path ∧ entry = later ∨ take.entries[path]? = some later := by
      intro path later at_
      rw [Std.ExtTreeMap.getElem?_insert] at at_
      split at at_
      · exact .inl ⟨Std.LawfulEqCmp.eq_of_compare ‹_›, Option.some.inj at_⟩
      · exact .inr at_
    refine ⟨?_, ?_, fun none_ => absurd (asked.symm.trans none_) (Option.some_ne_none _), ?_⟩
    · intro path drained
      have inside : path ∈ take.entries := by
        rcases Std.ExtTreeMap.mem_insert.mp drained with same | inside
        · exact Std.LawfulEqCmp.eq_of_compare same ▸ mem_entries there
        · exact inside
      exact (sound.accounted path inside).moved under moved
    · intro latest now at_ path later found unsettled_
      rcases entryOf path later found with ⟨rfl, rfl⟩ | old
      · exact sound.fresh latest now at_ other before there open_
      · exact sound.fresh latest now at_ path later old unsettled_
    · intro requeued
      exact absurd (sound.settled requeued other before there) (by rw [open_]; exact Bool.noConfusion)

theorem Safe.standing_classify (safe : Safe capture s) {entry : DirtyEntry}
    (looked : prior = (latestRow s.db capture.streamId path).map (·.toStat))
    (absent : s.disk path = .other → recordedContent s.db capture.streamId path = none) :
    Standing capture s false path (some (capture.classify prior now entry (s.disk path) true)) := by
  cases there : s.disk path with
  | absent =>
    simp only [SnapshotCapture.classify, Bool.not_true, Bool.false_eq_true, if_false]
    split
    · rename_i gone
      change Describes capture _ (s.disk path)
      rw [there]
      exact recorded_gone looked gone
    · change Describes capture _ (s.disk path)
      rw [there]
      rfl
  | other =>
    change Describes capture _ (s.disk path)
    rw [there]
    exact absent there
  | file bytes mtimeMs =>
    simp only [SnapshotCapture.classify, Bool.not_true, Bool.false_eq_true, if_false]
    split
    · rfl
    · split
      · rename_i _ big
        split
        · rename_i same
          change Describes capture _ (s.disk path)
          rw [there, Describes, if_pos big]
          exact safe.recorded_oversize looked same
        · change Describes capture _ (s.disk path)
          rw [there, Describes, if_pos big]
          rfl
      · rename_i _ small
        exact ⟨bytes, there, rfl, Nat.le_of_not_lt small⟩

theorem Safe.standing_read (safe : Safe capture s) {sizeBytes : Nat} {mtimeMs : Option Int} {keepBytes written : Bool}
    (looked : prior = (latestRow s.db capture.streamId path).map (·.toStat))
    (stands : Standing capture s false path (some (.statted sizeBytes mtimeMs))) (kept : written = true ∨ keepBytes = false) :
    Standing capture s false path
      (some (capture.readEntry prior keepBytes sizeBytes mtimeMs ((s.disk path).read true) written)) := by
  obtain ⟨bytes, there, rfl, fits⟩ := stands
  have small : ¬ capture.maxFileBytes < capture.size bytes := Nat.not_lt.mpr fits
  have read : (s.disk path).read true = some bytes := by
    rw [there]
    rfl
  rw [read]
  simp only [SnapshotCapture.readEntry]
  split
  · rename_i same
    change Describes capture _ (s.disk path)
    rw [there, Describes, if_neg small]
    exact safe.recorded_same looked same
  · split
    · rename_i _ lost
      rcases kept with done | bare
      · exact absurd done lost.2
      · exact absurd lost.1 (by rw [bare]; exact Bool.noConfusion)
    · change Describes capture _ (s.disk path)
      rw [there, Describes, if_neg small]
      refine .inl ?_
      cases keepBytes <;> rfl

theorem TakeSafe.open_ {entry : TakeEntry} (sound : TakeSafe capture s take) (there : take.entries[path]? = some entry)
    (open_ : entry.isSettled = false) : take.requeued = false := by
  cases requeued : take.requeued with
  | false => rfl
  | true => exact absurd (sound.settled requeued path entry there) (by rw [open_]; exact Bool.noConfusion)

/-- What a step of a run keeps: the state stays sound, and every path stays accounted for. -/
def Keeps (capture : SnapshotCapture β η) (s next : Capturing β η) : Prop :=
  Safe capture next ∧ ∀ path, Accounted capture s path → Accounted capture next path

theorem Safe.keeps (safe : Safe capture s) (db : next.db = s.db) (same : next.take = s.take)
    (accounted : ∀ path, Accounted capture s path → Accounted capture next path) : Keeps capture s next :=
  ⟨safe.frame db same accounted, accounted⟩

theorem Safe.stat {ok : Bool} {moved : Take} (safe : Safe capture s) (under : s.take = some take)
    (clear : Clear capture s (.stat path ok)) (moves : take.stat capture path (s.disk path) ok = some moved) :
    Keeps capture s { s with take := some moved } := by
  unfold Take.stat at moves
  split at moves
  · rename_i latest now entry asked there
    obtain rfl := Option.some.inj moves
    have sound := safe.taking take under
    have looked := sound.fresh latest now asked path (.unstaged entry) there rfl
    have settles : Later s path ∨
        Standing capture s take.requeued path (some (capture.classify latest[path]? now entry (s.disk path) ok)) := by
      rw [sound.open_ there rfl]
      refine clear.symm.imp id fun fine => ?_
      rw [fine.1]
      exact safe.standing_classify looked fine.2
    exact ⟨safe.moved under asked there rfl settles, fun _ accounted => accounted.moved under settles⟩
  · exact absurd moves (Option.some_ne_none _).symm

theorem Safe.read {ok written : Bool} {moved : Take} (safe : Safe capture s) (under : s.take = some take)
    (clear : Clear capture s (.read path ok written)) (moves : take.read capture path (s.disk path) ok written = some moved) :
    Keeps capture s { s with take := some moved } := by
  unfold Take.read at moves
  split at moves
  · rename_i latest now sizeBytes mtimeMs asked there
    obtain rfl := Option.some.inj moves
    have sound := safe.taking take under
    have looked := sound.fresh latest now asked path (.statted sizeBytes mtimeMs) there rfl
    have accounted := sound.accounted path (mem_entries there)
    rw [Accounted, under, entryAt_some under, there, Option.any_some, sound.open_ there rfl] at accounted
    have settles : Later s path ∨ Standing capture s take.requeued path
        (some (capture.readEntry latest[path]? take.keepBytes sizeBytes mtimeMs ((s.disk path).read ok) written)) := by
      rw [sound.open_ there rfl]
      rcases clear with fine | later
      · refine accounted.imp id fun stands => ?_
        rw [fine.1]
        exact safe.standing_read looked stands (fine.2.imp id fun bare => bare take under)
      · exact .inl later
    exact ⟨safe.moved under asked there rfl settles, fun _ accounted => accounted.moved under settles⟩
  · exact absurd moves (Option.some_ne_none _).symm

/-- Every deferred path is in the dirty set again, as it was or as it was heard of since. -/
theorem mem_requeued {entries : Std.ExtTreeMap String TakeEntry} {dirty : DirtySet} {heard : DirtyEntry}
    (there : entries[path]? = some (TakeEntry.defer heard)) :
    path ∈ entries.filterMap (fun _ entry => entry.deferred) ∪ dirty := by
  refine Std.ExtTreeMap.mem_union_of_left ?_
  rw [Std.ExtTreeMap.mem_iff_isSome_getElem?, Std.ExtTreeMap.getElem?_filterMap', there]
  rfl

theorem Accounted.requeue {dirty : DirtySet} (accounted : Accounted capture s path) (under : s.take = some take)
    (dirtied : dirty = take.entries.filterMap (fun _ entry => entry.deferred) ∪ s.dirty) :
    Accounted capture { s with take := some { take with requeued := true }, dirty := dirty } path := by
  subst dirtied
  rw [Accounted, under, entryAt_some under] at accounted
  rcases accounted with later | stands
  · exact .inl (later.imp id fun dirty => Std.ExtTreeMap.mem_union_of_right dirty)
  · rw [Accounted]
    change _ ∨ Standing capture _ true path take.entries[path]?
    cases there : take.entries[path]? with
    | none =>
      rw [there] at stands
      exact .inr stands
    | some entry =>
      rw [there] at stands
      cases entry with
      | defer heard => exact .inl (.inr (mem_requeued there))
      | unstaged _ | statted _ _ | row _ | dropped => exact .inr stands

theorem Safe.requeue {moved : Take × DirtySet} (safe : Safe capture s) (under : s.take = some take)
    (moves : take.requeue s.dirty = some moved) : Keeps capture s { s with take := some moved.1, dirty := moved.2 } := by
  unfold Take.requeue at moves
  split at moves
  · exact absurd moves (Option.some_ne_none _).symm
  · rename_i ready
    obtain rfl := Option.some.inj moves
    have settled : ∀ (path : String) (entry : TakeEntry), take.entries[path]? = some entry → entry.isSettled = true := by
      have all : take.entries.toList.all (·.2.isSettled) = true := by
        simp only [not_or, not_not] at ready
        exact ready.2.2
      intro path entry there
      exact List.all_eq_true.mp all (path, entry) (Std.ExtTreeMap.mem_toList_iff_getElem?_eq_some.mpr there)
    have sound := safe.taking take under
    refine ⟨⟨safe.kept, safe.formed, fun take' under' => ?_⟩, fun _ accounted => accounted.requeue under rfl⟩
    obtain rfl := Option.some.inj under'
    exact ⟨fun path drained => (sound.accounted path drained).requeue under rfl, sound.fresh, sound.unread, fun _ => settled⟩

/-! ## Recording -/

theorem newest_rows {streamId : Nat} :
    Overlay.newest FileSnapshot.path (take.rows streamId now) path =
    (take.entries[path]?.bind TakeEntry.staging).map fun staging => staging.toRow streamId path now := by
  cases there : take.entries[path]?.bind TakeEntry.staging with
  | none =>
    refine Overlay.newest_eq_none.mpr fun row member same => ?_
    obtain ⟨path', staging, at_, rfl⟩ := Take.mem_rows.mp member
    obtain rfl : path' = path := same
    simp [at_, TakeEntry.staging] at there
  | some staging =>
    obtain ⟨entry, at_, made⟩ := Option.bind_eq_some_iff.mp there
    have row : entry = .row staging := by
      cases entry with
      | row _ => exact congrArg TakeEntry.row (Option.some.inj made)
      | unstaged _ | statted _ _ | defer _ | dropped => exact absurd made (Option.some_ne_none _).symm
    have member : staging.toRow streamId path now ∈ take.rows streamId now := Take.mem_rows.mpr ⟨path, staging, row ▸ at_, rfl⟩
    exact Overlay.newest_of_distinct Take.rows_distinct member

theorem mem_remarked {rows : List FileSnapshot} {dirty : DirtySet} :
    path ∈ rows.foldl (fun dirty row => markDirty dirty row.path now) dirty ↔ path ∈ dirty ∨ ∃ row ∈ rows, row.path = path := by
  induction rows generalizing dirty with
  | nil => simp
  | cons row rows ih =>
    rw [List.foldl_cons, ih, mem_markDirty]
    simp only [List.mem_cons, exists_eq_or_imp]
    tauto

theorem formed_rows {streamId : Nat} : ∀ row ∈ take.rows streamId now, RowFormed row := by
  intro row member
  obtain ⟨path, staging, _, rfl⟩ := Take.mem_rows.mp member
  exact staging.formed

variable [DecidableEq η]

/-- Only a take with no rows, in a stream that has no snapshot, comes to nothing. -/
theorem rows_of_untaken {digest : List (String × String) → η} {db : SnapshotDb η} {record : TakeRecord} {before : ParentTree}
    (done : db.recordTakeTx digest record before = none) : record.rows = [] := by
  by_cases idle : record.rows.isEmpty = true
  · exact List.isEmpty_iff.mp idle
  · rw [recordTakeTx] at done
    have came := Option.map_eq_none_iff.mp done
    rw [if_neg idle] at came
    exact absurd came (Option.some_ne_none _)

variable {request : TakeRequest} {around : Surroundings}

/-- The store as a take that is recorded leaves it. -/
theorem Safe.record_db (safe : Safe capture s) (injective : Function.Injective capture.digest) (path : String) :
    Kept capture.digest (capture.record s take request around true).1.db ∧
      (∀ row ∈ (capture.record s take request around true).1.db.files, RowFormed row) ∧
      recordedContent (capture.record s take request around true).1.db capture.streamId path =
        (take.entries[path]?.bind TakeEntry.staging).elim (recordedContent s.db capture.streamId path) stagedContent := by
  let record := take.toRecord capture.streamId request around
  have newest : Overlay.newest FileSnapshot.path record.rows path =
      (take.entries[path]?.bind TakeEntry.staging).map fun staging => staging.toRow capture.streamId path around.now := newest_rows
  simp only [SnapshotCapture.record, if_true]
  cases done : s.db.recordTakeTx capture.digest record (s.db.readBefore record) with
  | none =>
    refine ⟨safe.kept, safe.formed, ?_⟩
    rw [rows_of_untaken done] at newest
    have unmade : take.entries[path]?.bind TakeEntry.staging = none := Option.map_eq_none_iff.mp newest.symm
    rw [unmade]
    rfl
  | some came =>
    obtain ⟨outcome, db'⟩ := came
    refine ⟨(taken_frame safe.kept (readBefore_read safe.kept) injective done).1, ?_, ?_⟩
    · exact formed_taken safe.kept safe.formed injective formed_rows done
    · have content : recordedContent db' capture.streamId path =
          (Overlay.newest FileSnapshot.path record.rows path).elim (recordedContent s.db capture.streamId path) told :=
        recordedContent_taken safe.kept injective done
      rw [newest] at content
      refine content.trans ?_
      cases take.entries[path]?.bind TakeEntry.staging <;> rfl

/-- A take that cannot be recorded leaves its paths to the next, but for those it found
unchanged. -/
theorem Safe.remarked (safe : Safe capture s) (under : s.take = some take) (requeued : take.requeued = true)
    (accounted : Accounted capture s path) :
    Later (capture.record s take request around false).1 path ∨
      (entryAt s path = none ∨ entryAt s path = some .dropped) ∧ Described capture s path := by
  have settled := (safe.taking take under).settled requeued
  rw [Accounted, under] at accounted
  rcases accounted with later | stands
  · exact .inl (later.imp id fun dirty => mem_remarked.mpr (.inl dirty))
  · cases at_ : entryAt s path with
    | none =>
      rw [at_] at stands
      exact .inr ⟨.inl rfl, stands⟩
    | some entry =>
      rw [at_] at stands
      have there : take.entries[path]? = some entry := (entryAt_some under).symm.trans at_
      cases entry with
      | dropped => exact .inr ⟨.inr rfl, stands⟩
      | row staging => exact .inl (.inr (mem_remarked.mpr (.inr ⟨_, Take.mem_rows.mpr ⟨path, staging, there, rfl⟩, rfl⟩)))
      | defer _ => exact absurd (requeued.symm.trans stands) Bool.noConfusion
      | unstaged _ | statted _ _ => exact absurd (settled path _ there) Bool.noConfusion

theorem Safe.record {ok : Bool} (safe : Safe capture s) (injective : Function.Injective capture.digest) (under : s.take = some take)
    (requeued : take.requeued = true) : Keeps capture s (capture.record s take request around ok).1 := by
  have settled := (safe.taking take under).settled requeued
  cases ok with
  | true =>
    refine ⟨⟨(safe.record_db injective "").1, (safe.record_db injective "").2.1,
      fun _ under' => absurd under' (Option.some_ne_none _).symm⟩, fun path accounted => ?_⟩
    have content : recordedContent (capture.record s take request around true).1.db capture.streamId path =
        (take.entries[path]?.bind TakeEntry.staging).elim (recordedContent s.db capture.streamId path) stagedContent :=
      (safe.record_db injective path).2.2
    rw [Accounted, under, entryAt_some under] at accounted
    refine accounted.imp id fun stands => ?_
    change Described capture _ path
    cases there : take.entries[path]? with
    | none =>
      rw [there] at stands content
      rw [Described, content]
      exact stands
    | some entry =>
      rw [there] at stands content
      rw [Described, content]
      cases entry with
      | dropped => exact stands
      | row staging => exact stands
      | defer _ => exact absurd (requeued.symm.trans stands) Bool.noConfusion
      | unstaged _ | statted _ _ => exact absurd (settled path _ there) Bool.noConfusion
  | false =>
    refine ⟨⟨safe.kept, safe.formed, fun _ under' => absurd under' (Option.some_ne_none _).symm⟩, fun path accounted => ?_⟩
    exact (safe.remarked under requeued accounted).imp id fun unchanged => unchanged.2

/-! ## Runs -/

variable {event : CaptureStep β} {out : CaptureOutcome}

theorem Safe.step (safe : Safe capture s) (injective : Function.Injective capture.digest) (clear : Clear capture s event)
    (moves : capture.step s event = some (next, out)) : Keeps capture s next := by
  cases event with
  | edit path node =>
    obtain ⟨rfl, rfl⟩ := Prod.mk.inj (Option.some.inj moves)
    exact safe.keeps rfl rfl fun _ accounted => accounted.edit
  | mark path now =>
    obtain ⟨rfl, rfl⟩ := Prod.mk.inj (Option.some.inj moves)
    exact safe.keeps rfl rfl fun _ accounted => accounted.mark
  | sweep under keepBytes =>
    obtain ⟨rfl, rfl⟩ := Prod.mk.inj (Option.some.inj moves)
    exact safe.keeps rfl rfl fun _ accounted => accounted.frame rfl rfl rfl id
  | visit _ _ _ | hash _ _ _ _ _ _ | walked _ =>
    obtain ⟨moved, onSweep, same⟩ := Option.map_eq_some_iff.mp moves
    obtain ⟨rfl, rfl⟩ := Prod.mk.inj same
    obtain ⟨sweeps, rfl⟩ := onSweep_eq onSweep
    exact safe.keeps rfl rfl fun _ accounted => accounted.frame rfl rfl rfl id
  | stage index path now =>
    obtain ⟨moved, staged, same⟩ := Option.map_eq_some_iff.mp moves
    obtain ⟨rfl, rfl⟩ := Prod.mk.inj same
    obtain ⟨db, take⟩ := stage_frame staged
    exact safe.keeps db take fun _ accounted => accounted.stage staged
  | drain keepBytes =>
    simp only [SnapshotCapture.step] at moves
    split at moves
    · exact absurd moves (Option.some_ne_none _).symm
    · rename_i busy
      obtain ⟨rfl, rfl⟩ := Prod.mk.inj (Option.some.inj moves)
      have idle : s.take = none := Option.not_isSome_iff_eq_none.mp busy
      exact ⟨safe.drain idle clear, fun _ accounted => accounted.drain idle clear⟩
  | lookup now ok =>
    obtain ⟨take, under, moves⟩ := Option.bind_eq_some_iff.mp moves
    split at moves
    · exact absurd moves (Option.some_ne_none _).symm
    · rename_i unasked
      split at moves
      · obtain ⟨rfl, rfl⟩ := Prod.mk.inj (Option.some.inj moves)
        exact ⟨safe.lookup under (Option.not_isSome_iff_eq_none.mp unasked), fun _ accounted => accounted.lookup under⟩
      · rename_i failed
        obtain ⟨rfl, rfl⟩ := Prod.mk.inj (Option.some.inj moves)
        have later := clear.resolve_left failed
        exact ⟨⟨safe.kept, safe.formed, fun _ under' => absurd under' (Option.some_ne_none _).symm⟩,
          fun path accounted => accounted.give_up (later path)⟩
  | stat path ok =>
    obtain ⟨moved, taken, same⟩ := Option.map_eq_some_iff.mp moves
    obtain ⟨rfl, rfl⟩ := Prod.mk.inj same
    obtain ⟨take, under, taken⟩ := Option.bind_eq_some_iff.mp taken
    exact safe.stat under clear taken
  | read path ok written =>
    obtain ⟨moved, taken, same⟩ := Option.map_eq_some_iff.mp moves
    obtain ⟨rfl, rfl⟩ := Prod.mk.inj same
    obtain ⟨take, under, taken⟩ := Option.bind_eq_some_iff.mp taken
    exact safe.read under clear taken
  | requeue =>
    obtain ⟨moved, taken, same⟩ := Option.map_eq_some_iff.mp moves
    obtain ⟨rfl, rfl⟩ := Prod.mk.inj same
    obtain ⟨take, under, taken⟩ := Option.bind_eq_some_iff.mp taken
    exact safe.requeue under taken
  | record request around ok =>
    obtain ⟨take, under, moves⟩ := Option.bind_eq_some_iff.mp moves
    split at moves
    · rename_i requeued
      have made : (capture.record s take request around ok).1 = next := congrArg Prod.fst (Option.some.inj moves)
      rw [← made]
      exact safe.record injective under requeued
    · exact absurd moves (Option.some_ne_none _).symm

/-- A failing take's paths are looked at again. What it found unchanged is described already. -/
theorem Safe.failed (safe : Safe capture s) (clear : Clear capture s event) {drained : List String}
    (moves : capture.step s event = some (next, .failed drained)) {path : String} (member : path ∈ drained) :
    Later next path ∨ entryAt s path = some .dropped ∧ Described capture next path := by
  cases event with
  | lookup now ok =>
    obtain ⟨take, under, moves⟩ := Option.bind_eq_some_iff.mp moves
    split at moves
    · exact absurd moves (Option.some_ne_none _).symm
    · split at moves
      · exact absurd (congrArg Prod.snd (Option.some.inj moves)) CaptureOutcome.noConfusion
      · rename_i failed
        obtain ⟨rfl, same⟩ := Prod.mk.inj (Option.some.inj moves)
        obtain rfl := CaptureOutcome.failed.inj same
        have inside : path ∈ take.entries := Std.ExtTreeMap.mem_keys.mp member
        have there : entryAt s path ≠ none := by
          rw [entryAt_some under, Std.ExtTreeMap.getElem?_eq_some_getElem inside]
          exact Option.some_ne_none _
        exact .inl (clear.resolve_left failed path there)
  | record request around ok =>
    obtain ⟨take, under, moves⟩ := Option.bind_eq_some_iff.mp moves
    split at moves
    · rename_i requeued
      cases ok with
      | true => exact absurd (congrArg Prod.snd (Option.some.inj moves)) CaptureOutcome.noConfusion
      | false =>
        obtain ⟨rfl, same⟩ := Prod.mk.inj (Option.some.inj moves)
        obtain rfl := CaptureOutcome.failed.inj same
        have inside : path ∈ take.entries := Std.ExtTreeMap.mem_keys.mp member
        have there : entryAt s path ≠ none := by
          rw [entryAt_some under, Std.ExtTreeMap.getElem?_eq_some_getElem inside]
          exact Option.some_ne_none _
        have accounted := (safe.taking take under).accounted path inside
        exact (safe.remarked under requeued accounted).imp id fun unchanged => ⟨unchanged.1.resolve_left there, unchanged.2⟩
    · exact absurd moves (Option.some_ne_none _).symm
  | edit _ _ | mark _ _ | sweep _ _ => exact absurd (congrArg Prod.snd (Option.some.inj moves)) CaptureOutcome.noConfusion
  | visit _ _ _ | hash _ _ _ _ _ _ | walked _ | stage _ _ _ | stat _ _ | read _ _ _ | requeue =>
    obtain ⟨_, _, same⟩ := Option.map_eq_some_iff.mp moves
    exact absurd (congrArg Prod.snd same) CaptureOutcome.noConfusion
  | drain _ =>
    simp only [SnapshotCapture.step] at moves
    split at moves
    · exact absurd moves (Option.some_ne_none _).symm
    · exact absurd (congrArg Prod.snd (Option.some.inj moves)) CaptureOutcome.noConfusion

/-- All that is at the path came by an edit. -/
def Told (disk : String → Node β) (events : List (CaptureStep β)) (path : String) : Prop :=
  (∀ bytes mtimeMs, disk path ≠ .file bytes mtimeMs) ∨ ∃ node, .edit path node ∈ events

variable (capture) in
/-- What a run from an empty store comes to. -/
structure LosesNothing (disk : String → Node β) (events : List (CaptureStep β)) : Prop where
  described : ∀ path, Told disk events path → Settled (Machine.run capture.step (.start disk) events) path →
    Described capture (Machine.run capture.step (.start disk) events) path
  again : ∀ before event after, events = before ++ event :: after → ∀ next drained,
    capture.step (Machine.run capture.step (.start disk) before) event = some (next, .failed drained) →
    ∀ path ∈ drained, Later next path ∨
      entryAt (Machine.run capture.step (.start disk) before) path = some .dropped ∧ Described capture next path

theorem run_keeps (safe : Safe capture s) (injective : Function.Injective capture.digest) {events : List (CaptureStep β)}
    (clear : Machine.Admits capture.step (Clear capture) s events) : Keeps capture s (Machine.run capture.step s events) :=
  Machine.run_allowed (fun s next => ∀ path, Accounted capture s path → Accounted capture next path) (fun _ _ accounted => accounted)
    (fun first second path accounted => second path (first path accounted)) (Safe capture)
    (fun _ _ _ _ safe clear moves => safe.step injective clear moves) safe clear

end Paths

/-! ## A run that loses nothing, and two that do -/

/-- Bytes are told by themselves, and a file of any size is read. -/
def plain : SnapshotCapture String (List (String × String)) where
  streamId := 1
  size := String.length
  hash := id
  idOf := id
  digest := id
  maxFileBytes := 1000
  settleMs := 0
  sparseHistory := false
  ignore := fun _ => false

def quiet : TakeRequest := ⟨.quiet, none, none, none, none, none⟩

def around (now : Nat) : Surroundings := ⟨none, none, none, 0, now⟩

/-- Nothing a sweep read is drained. -/
theorem clear_unstaged {β η : Type} {capture : SnapshotCapture β η} {s : Capturing β η} {keepBytes : Bool}
    (unstaged : s.dirty.toList.all (·.2.staging.isNone) = true) : Clear capture s (.drain keepBytes) := by
  intro path entry staging there staged
  have none_ := List.all_eq_true.mp unstaged (path, entry) (Std.ExtTreeMap.mem_toList_iff_getElem?_eq_some.mpr there)
  rw [staged] at none_
  exact absurd none_ Bool.noConfusion

/-- A file is written, and a take records it. -/
def oneEdit : List (CaptureStep String) :=
  [.edit "a" (.file "one" (some 1)), .mark "a" 1, .drain true, .lookup 2 true, .stat "a" true, .read "a" true true, .requeue,
    .record quiet (around 3) true]

/-- A sweep stages a file; it is edited, and its event leaves the reading as it is. -/
def editedAfterSweep : List (CaptureStep String) :=
  [.edit "a" (.file "one" (some 1)), .mark "a" 1, .sweep "" true, .visit 0 "a" true, .hash 0 "a" none none true true, .walked 0,
    .stage 0 "a" 2, .edit "a" (.file "two" (some 2)), .mark "a" 3, .drain true, .lookup 4 true, .requeue, .record quiet (around 5) true]

/-- The store fails as a take looks up what it drained. -/
def lookupFails : List (CaptureStep String) :=
  [.edit "a" (.file "one" (some 1)), .mark "a" 1, .drain true, .lookup 2 false]

end Oxplow.Proofs.CaptureRuns
