import Oxplow.Changes.ChangeStore

/-! Which reading of a file stands. The log's highest seq orders the stores of lists; it
orders their readings only while no list reads the disk under a lower seq than one that is
stored or waits to be. -/

namespace Oxplow.Proofs.ListReads
open Changes Library.Machine

/-! ## What a list says of a path -/

/-- What a list says of a path, but for git's flags. -/
def contentAt (rows : List ChangeFileRow) (path : String) : Option ChangeFileRow := (rows.find? (·.path == path)).map unflagged

variable {rows : List ChangeFileRow} {path : String}

theorem contentAt_append {others : List ChangeFileRow} (absent : ∀ row ∈ rows, row.path ≠ path) :
    contentAt (rows ++ others) path = contentAt others path := by
  have none : rows.find? (·.path == path) = none := by
    apply List.find?_eq_none.mpr
    intro row member same
    exact absent row member (eq_of_beq same)
  rw [contentAt, List.find?_append, none, Option.none_or]
  rfl

theorem contentAt_append_absent {others : List ChangeFileRow} (absent : ∀ row ∈ others, row.path ≠ path) :
    contentAt (rows ++ others) path = contentAt rows path := by
  have none : others.find? (·.path == path) = none := by
    apply List.find?_eq_none.mpr
    intro row member same
    exact absent row member (eq_of_beq same)
  rw [contentAt, List.find?_append, none, Option.or_none]
  rfl

theorem contentAt_filter {keep : ChangeFileRow → Bool} (kept : ∀ row : ChangeFileRow, row.path = path → keep row = true) :
    contentAt (rows.filter keep) path = contentAt rows path := by
  rw [contentAt, List.find?_filter]
  have same : (fun row : ChangeFileRow => decide (keep row = true ∧ (row.path == path) = true)) = fun row => row.path == path := by
    funext row
    by_cases here : row.path = path
    · simp [here, kept row here]
    · simp [here]
  rw [same]
  rfl

theorem contentAt_keptFlags (change : Change) (rows : List ChangeFileRow) (path : String) :
    contentAt (rows.map change.keptFlags) path = contentAt rows path := by
  rw [contentAt, List.find?_map, Option.map_map]
  rfl

/-! ## What the store writes -/

theorem insertFiles_eq {kept files : List ChangeFileRow} (inserts : insertFiles kept files = some rows) :
    rows = kept ++ files := by
  induction files generalizing kept with
  | nil =>
    cases inserts
    exact (List.append_nil _).symm
  | cons file files ih =>
    rw [insertFiles] at inserts
    split at inserts
    · cases inserts
    · rw [ih inserts, List.append_assoc]
      rfl

/-- What a write does: nothing while a newer list stands, and else it says what `rows` do of
each path it covers. -/
structure Writes (change : Change) (eventsTo : Nat) (covers : String → Bool) (rows : List ChangeFileRow) (written : Change) (wrote : Bool) :
    Prop where
  decides : wrote = !change.newerListStored eventsTo
  stands : wrote = false → written.files = change.files ∧ written.filesEventsTo = change.filesEventsTo
  stamps : wrote = true → written.filesEventsTo = some eventsTo
  answers : wrote = true → ∀ path, contentAt written.files path = if covers path then contentAt rows path else contentAt change.files path

variable {change written : Change} {at' : String} {eventsTo : Nat} {wrote : Bool}

theorem writeFiles_writes (writes : change.writeFiles rows at' eventsTo = some (written, wrote)) :
    Writes change eventsTo (fun _ => true) rows written wrote := by
  rw [Change.writeFiles] at writes
  split at writes
  · rename_i newer
    cases writes
    exact ⟨by rw [newer]; rfl, fun _ => ⟨rfl, rfl⟩, (fun wrote => nomatch wrote), (fun wrote => nomatch wrote)⟩
  · rename_i older
    obtain ⟨files, inserts, same⟩ := Option.map_eq_some_iff.mp writes
    cases same
    have eq := insertFiles_eq inserts
    refine ⟨by rw [Bool.eq_false_iff.mpr older]; rfl, (fun wrote => nomatch wrote), fun _ => rfl, ?_⟩
    intro _ path
    rw [if_pos rfl, ← contentAt_keptFlags change rows path]
    simp only [Change.stampFiles, eq, List.nil_append]

theorem storePathFiles_writes {paths : List String} (within : ∀ row ∈ rows, row.path ∈ paths)
    (writes : change.storePathFiles paths rows eventsTo at' = some (written, wrote)) :
    Writes change eventsTo (fun path => paths.any (covers · path)) rows written wrote := by
  rw [Change.storePathFiles] at writes
  split at writes
  · rename_i newer
    cases writes
    exact ⟨by rw [newer]; rfl, fun _ => ⟨rfl, rfl⟩, (fun wrote => nomatch wrote), (fun wrote => nomatch wrote)⟩
  · rename_i older
    obtain ⟨files, inserts, same⟩ := Option.map_eq_some_iff.mp writes
    cases same
    have eq := insertFiles_eq inserts
    refine ⟨by rw [Bool.eq_false_iff.mpr older]; rfl, (fun wrote => nomatch wrote), fun _ => rfl, ?_⟩
    intro _ path
    simp only [Change.stampFiles, eq]
    by_cases here : paths.any (covers · path) = true
    · rw [if_pos here]
      apply contentAt_append
      intro row member same
      have kept := (List.mem_filter.mp member).2
      rw [same, here] at kept
      cases kept
    · rw [if_neg here, contentAt_append_absent]
      · apply contentAt_filter
        rintro row rfl
        simpa using here
      · intro row member same
        apply here
        apply List.any_eq_true.mpr
        exact ⟨row.path, within row member, by simp [covers, same]⟩

/-- A reading is of the paths its listing looked at, and of all where it lists all. -/
def Fits (listing : Listing) (reading : Reading) : Prop :=
  match listing with
  | .paths _ _ => ∃ paths, reading.paths = some paths ∧ ∀ row ∈ reading.rows, row.path ∈ paths
  | _ => reading.paths = none

variable {s : ListState} {listing : Listing} {reading : Reading}

theorem write_writes (fits : Fits listing reading) (writes : s.write eventsTo reading at' listing = some (written, wrote)) :
    Writes s.change eventsTo reading.covers reading.rows written wrote := by
  cases listing with
  | files =>
    have whole : reading.covers = fun _ => true := by
      funext path
      rw [Reading.covers, show reading.paths = none from fits]
    obtain ⟨change, stores, same⟩ := Option.map_eq_some_iff.mp writes
    obtain ⟨⟨list, wrote'⟩, lists, eq⟩ := Option.map_eq_some_iff.mp stores
    have base := writeFiles_writes lists
    cases same
    subst eq
    rw [whole, ← base.decides]
    cases wrote' with
    | true => exact ⟨base.decides, (fun no => nomatch no), fun _ => base.stamps rfl, fun _ => base.answers rfl⟩
    | false => exact ⟨base.decides, fun _ => base.stands rfl, (fun no => nomatch no), (fun no => nomatch no)⟩
  | analysis =>
    have whole : reading.covers = fun _ => true := by
      funext path
      rw [Reading.covers, show reading.paths = none from fits]
    obtain ⟨change, stores, same⟩ := Option.map_eq_some_iff.mp writes
    obtain ⟨⟨list, wrote'⟩, lists, eq⟩ := Option.map_eq_some_iff.mp stores
    have base := writeFiles_writes lists
    cases same
    subst eq
    rw [whole, ← base.decides]
    exact ⟨base.decides, base.stands, base.stamps, base.answers⟩
  | paths asked base =>
    obtain ⟨paths, some', within⟩ := fits
    have part : reading.covers = fun path => paths.any (covers · path) := by
      funext path
      rw [Reading.covers, some']
    rw [part]
    apply storePathFiles_writes within
    simpa [ListState.write, some'] using writes

/-! ## What every orderly step keeps -/

/-- A list that was read, and is not stored yet. -/
def Waits (s : ListState) (id : Nat) (listing : Listing) (eventsTo : Nat) (reading : Reading) : Prop :=
  s.calls id = some (.read listing eventsTo reading)

/-- The steps that keep the readings in the order of their seqs. -/
def Orderly (s : ListState) : ListStep → Prop
  -- The disk is read under a seq as high as the stored list's, and as each waiting list's.
  | .read id _ => ∀ listing eventsTo, s.calls id = some (.counted listing eventsTo) → s.change.newerListStored eventsTo = false ∧
      ∀ other listing' eventsTo' reading', Waits s other listing' eventsTo' reading' → eventsTo' ≤ eventsTo
  -- A list is stored before a waiting one that read the disk later under its seq, and over a
  -- waiting one with a lower seq only where it covers all that one read.
  | .store id _ => ∀ listing eventsTo reading, Waits s id listing eventsTo reading → s.change.newerListStored eventsTo = false →
      ∀ other listing' eventsTo' reading', Waits s other listing' eventsTo' reading' →
        (eventsTo' = eventsTo → reading.time ≤ reading'.time) ∧
          (eventsTo' < eventsTo → ∀ path, reading'.covers path = true → reading.covers path = true)
  | _ => True

/-- A waiting list is passed over exactly where each of its paths is stored from a later reading. -/
structure Timely (s : ListState) (eventsTo : Nat) (reading : Reading) : Prop where
  due : s.change.newerListStored eventsTo = false → ∀ path, reading.covers path = true → s.readAt path ≤ reading.time
  passed : s.change.newerListStored eventsTo = true → ∀ path, reading.covers path = true → reading.time < s.readAt path

structure Kept (s : ListState) : Prop where
  reads : ∀ id listing eventsTo reading, Waits s id listing eventsTo reading →
    reading.time < s.clock ∧ s.readings reading.time = reading.rows ∧ Fits listing reading
  shown : ∀ path, s.readAt path < s.clock ∧ contentAt s.change.files path = contentAt (s.readings (s.readAt path)) path
  apart : ∀ i j listing eventsTo reading listing' eventsTo' reading', Waits s i listing eventsTo reading →
    Waits s j listing' eventsTo' reading' → reading.time = reading'.time → i = j
  ordered : ∀ i j listing eventsTo reading listing' eventsTo' reading', Waits s i listing eventsTo reading →
    Waits s j listing' eventsTo' reading' → reading.time < reading'.time → eventsTo ≤ eventsTo'
  timely : ∀ id listing eventsTo reading, Waits s id listing eventsTo reading → Timely s eventsTo reading

theorem kept_start (working : Bool) (base : Option Revision) (head : Revision) : Kept (.start working base head) where
  reads := fun _ _ _ _ waits => nomatch waits
  shown := fun _ => ⟨Nat.zero_lt_one, rfl⟩
  apart := fun _ _ _ _ _ _ _ _ waits => nomatch waits
  ordered := fun _ _ _ _ _ _ _ _ waits => nomatch waits
  timely := fun _ _ _ _ waits => nomatch waits

/-- A state with no other waiting lists, and all else of the lists as it was. -/
theorem Kept.fewer {s' : ListState} (kept : Kept s) (files : s'.change.files = s.change.files)
    (seq : s'.change.filesEventsTo = s.change.filesEventsTo) (clock : s'.clock = s.clock) (readings : s'.readings = s.readings)
    (readAt : s'.readAt = s.readAt) (calls : ∀ id listing eventsTo reading, Waits s' id listing eventsTo reading →
      Waits s id listing eventsTo reading) : Kept s' := by
  have newer : ∀ eventsTo, s'.change.newerListStored eventsTo = s.change.newerListStored eventsTo := by
    intro eventsTo
    rw [Change.newerListStored, Change.newerListStored, seq]
  refine ⟨?_, ?_, ?_, ?_, ?_⟩
  · intro id listing eventsTo reading waits
    rw [clock, readings]
    exact kept.reads id listing eventsTo reading (calls id listing eventsTo reading waits)
  · intro path
    rw [files, clock, readings, readAt]
    exact kept.shown path
  · intro i j listing eventsTo reading listing' eventsTo' reading' first second
    exact kept.apart i j _ _ _ _ _ _ (calls _ _ _ _ first) (calls _ _ _ _ second)
  · intro i j listing eventsTo reading listing' eventsTo' reading' first second
    exact kept.ordered i j _ _ _ _ _ _ (calls _ _ _ _ first) (calls _ _ _ _ second)
  · intro id listing eventsTo reading waits
    obtain ⟨due, passed⟩ := kept.timely id listing eventsTo reading (calls id listing eventsTo reading waits)
    constructor
    · rw [newer, readAt]
      exact due
    · rw [newer, readAt]
      exact passed

variable {id : Nat}

theorem waits_update {calls : Nat → Option ListCall} {call : Option ListCall} {other : Nat}
    (same : s.calls = Function.update calls id call) (waits : Waits s other listing eventsTo reading) :
    (other = id ∧ call = some (.read listing eventsTo reading)) ∨ (other ≠ id ∧ calls other = some (.read listing eventsTo reading)) := by
  rw [Waits, same] at waits
  by_cases here : other = id
  · rw [here, Function.update_self] at waits
    exact .inl ⟨here, waits⟩
  · rw [Function.update_of_ne here] at waits
    exact .inr ⟨here, waits⟩

/-- A call that comes to no reading. -/
theorem Kept.updated (kept : Kept s) {next log : Nat} {tree : List ChangeFileRow} {call : Option ListCall}
    (unread : ∀ listing eventsTo reading, call ≠ some (.read listing eventsTo reading)) :
    Kept { s with calls := Function.update s.calls id call, next, log, tree } := by
  apply kept.fewer
  case calls =>
    intro other listing eventsTo reading waits
    obtain ⟨-, same⟩ | ⟨-, before⟩ := waits_update rfl waits
    · exact absurd same (unread listing eventsTo reading)
    · exact before
  all_goals rfl

theorem reading_time (s : ListState) (seen : Seen) (listing : Listing) : (s.reading seen listing).time = s.clock := by
  cases listing <;> rfl

theorem reading_fits (s : ListState) (seen : Seen) (listing : Listing) : Fits listing (s.reading seen listing) := by
  cases listing with
  | files => rfl
  | analysis => rfl
  | paths asked base =>
    refine ⟨_, rfl, ?_⟩
    intro row member
    cases working : s.working with
    | true =>
      simp only [ListState.reading, working, if_true] at member ⊢
      simpa using (List.mem_filter.mp member).2
    | false =>
      simp only [ListState.reading, working, Bool.false_eq_true, if_false] at member ⊢
      obtain ⟨other, inside, rfl⟩ := List.mem_map.mp member
      simpa [unflagged] using (List.mem_filter.mp inside).2

/-- The disk read, as the last of all readings. -/
theorem Kept.read (kept : Kept s) (older : s.change.newerListStored eventsTo = false)
    (last : ∀ other listing' eventsTo' reading', Waits s other listing' eventsTo' reading' → eventsTo' ≤ eventsTo) (seen : Seen) :
    Kept { s with
      calls := Function.update s.calls id (some (.read listing eventsTo (s.reading seen listing)))
      readings := Function.update s.readings s.clock (s.reading seen listing).rows
      clock := s.clock + 1 } := by
  have time := reading_time s seen listing
  have before : ∀ t, t < s.clock → Function.update s.readings s.clock (s.reading seen listing).rows t = s.readings t :=
    fun t below => Function.update_of_ne (Nat.ne_of_lt below) _ _
  refine ⟨?_, ?_, ?_, ?_, ?_⟩
  · intro other listing' eventsTo' reading' waits
    obtain ⟨-, same⟩ | ⟨-, waited⟩ := waits_update rfl waits
    · cases same
      refine ⟨?_, ?_, reading_fits s seen listing⟩
      · rw [time]
        exact Nat.lt_succ_self s.clock
      · rw [time]
        exact Function.update_self _ _ _
    · obtain ⟨below, rows, fits⟩ := kept.reads other _ _ _ waited
      exact ⟨Nat.lt_succ_of_lt below, (before _ below).trans rows, fits⟩
  · intro path
    obtain ⟨below, same⟩ := kept.shown path
    refine ⟨Nat.lt_succ_of_lt below, ?_⟩
    simp only [before _ below]
    exact same
  · intro i j _ _ _ _ _ _ first second times
    obtain ⟨rfl, sameI⟩ | ⟨-, waitsI⟩ := waits_update rfl first <;> obtain ⟨rfl, sameJ⟩ | ⟨-, waitsJ⟩ := waits_update rfl second
    · rfl
    · cases sameI
      have below := (kept.reads j _ _ _ waitsJ).1
      omega
    · cases sameJ
      have below := (kept.reads i _ _ _ waitsI).1
      omega
    · exact kept.apart i j _ _ _ _ _ _ waitsI waitsJ times
  · intro i j _ _ _ _ _ _ first second earlier
    obtain ⟨rfl, sameI⟩ | ⟨-, waitsI⟩ := waits_update rfl first <;> obtain ⟨rfl, sameJ⟩ | ⟨-, waitsJ⟩ := waits_update rfl second
    · cases sameI
      cases sameJ
      exact Nat.le_refl _
    · cases sameI
      have below := (kept.reads j _ _ _ waitsJ).1
      omega
    · cases sameJ
      exact last i _ _ _ waitsI
    · exact kept.ordered i j _ _ _ _ _ _ waitsI waitsJ earlier
  · intro other listing' eventsTo' reading' waits
    obtain ⟨-, same⟩ | ⟨-, waited⟩ := waits_update rfl waits
    · cases same
      refine ⟨?_, fun newer => absurd (older.symm.trans newer) Bool.false_ne_true⟩
      intro _ path _
      rw [time]
      exact Nat.le_of_lt (kept.shown path).1
    · obtain ⟨due, passed⟩ := kept.timely other _ _ _ waited
      exact ⟨due, passed⟩

theorem newerListStored_mono {eventsTo' : Nat} (le : eventsTo ≤ eventsTo') (older : change.newerListStored eventsTo = false) :
    change.newerListStored eventsTo' = false := by
  rw [Change.newerListStored] at older ⊢
  cases stored : change.filesEventsTo with
  | none => rfl
  | some seq =>
    rw [stored] at older
    simp only [Option.any_some, decide_eq_false_iff_not] at older ⊢
    omega

/-- The list stored, where it is not passed over. -/
theorem Kept.stored (kept : Kept s) (waits : Waits s id listing eventsTo reading)
    (writes : Writes s.change eventsTo reading.covers reading.rows change wrote)
    (orderly : s.change.newerListStored eventsTo = false → ∀ other listing' eventsTo' reading', Waits s other listing' eventsTo' reading' →
      (eventsTo' = eventsTo → reading.time ≤ reading'.time) ∧
        (eventsTo' < eventsTo → ∀ path, reading'.covers path = true → reading.covers path = true)) :
    Kept { s with
      change
      calls := Function.update s.calls id none
      readAt := fun path => if wrote && reading.covers path then reading.time else s.readAt path } := by
  have others : ∀ s' : ListState, s'.calls = Function.update s.calls id none → ∀ other listing' eventsTo' reading',
      Waits s' other listing' eventsTo' reading' → other ≠ id ∧ Waits s other listing' eventsTo' reading' := by
    intro s' calls other listing' eventsTo' reading' waits
    obtain ⟨-, same⟩ | ⟨apart, waited⟩ := waits_update calls waits
    · cases same
    · exact ⟨apart, waited⟩
  cases wrote with
  | false =>
    obtain ⟨files, seq⟩ := writes.stands rfl
    apply kept.fewer
    case calls => exact fun other _ _ _ waits => (others _ rfl other _ _ _ waits).2
    case files => exact files
    case seq => exact seq
    all_goals rfl
  | true =>
    have older : s.change.newerListStored eventsTo = false := by simpa using writes.decides.symm
    have newer : ∀ eventsTo', change.newerListStored eventsTo' = decide (eventsTo' < eventsTo) := by
      intro eventsTo'
      rw [Change.newerListStored, writes.stamps rfl]
      rfl
    have at' : ∀ path, reading.covers path = true → (if (true && reading.covers path) = true then reading.time else s.readAt path) = reading.time := by
      intro path covers
      rw [covers]
      rfl
    have off : ∀ path, reading.covers path = false → (if (true && reading.covers path) = true then reading.time else s.readAt path) = s.readAt path := by
      intro path covers
      rw [covers]
      rfl
    obtain ⟨below, rows, -⟩ := kept.reads id _ _ _ waits
    refine ⟨?_, ?_, ?_, ?_, ?_⟩
    · exact fun other _ _ _ waits => kept.reads other _ _ _ (others _ rfl other _ _ _ waits).2
    · intro path
      have answers := writes.answers rfl path
      cases covers : reading.covers path with
      | true =>
        rw [covers, if_pos rfl] at answers
        simp only [at' path covers]
        refine ⟨below, ?_⟩
        rw [answers, rows]
      | false =>
        rw [covers, if_neg Bool.false_ne_true] at answers
        simp only [off path covers]
        refine ⟨(kept.shown path).1, ?_⟩
        rw [answers]
        exact (kept.shown path).2
    · intro i j _ _ _ _ _ _ first second
      exact kept.apart i j _ _ _ _ _ _ (others _ rfl i _ _ _ first).2 (others _ rfl j _ _ _ second).2
    · intro i j _ _ _ _ _ _ first second
      exact kept.ordered i j _ _ _ _ _ _ (others _ rfl i _ _ _ first).2 (others _ rfl j _ _ _ second).2
    · intro other listing' eventsTo' reading' waits'
      obtain ⟨apart, waited⟩ := others _ rfl other _ _ _ waits'
      obtain ⟨tie, within⟩ := orderly older other _ _ _ waited
      have times : reading'.time ≠ reading.time := fun same => apart (kept.apart other id _ _ _ _ _ _ waited waits same)
      constructor
      · intro still path covers'
        have le : eventsTo ≤ eventsTo' := by
          rw [newer] at still
          simpa using still
        cases covers : reading.covers path with
        | true =>
          simp only [at' path covers]
          -- read later, its seq would be lower, or the same and stored out of order
          apply Nat.le_of_not_lt
          intro earlier
          have ge := kept.ordered other id _ _ _ _ _ _ waited waits earlier
          have last := tie (Nat.le_antisymm ge le)
          omega
        | false =>
          simp only [off path covers]
          exact (kept.timely other _ _ _ waited).due (newerListStored_mono le older) path covers'
      · intro passes path covers'
        have lt : eventsTo' < eventsTo := by
          rw [newer] at passes
          simpa using passes
        simp only [at' path (within lt path covers')]
        apply Nat.lt_of_le_of_ne ?_ times
        apply Nat.le_of_not_lt
        intro later
        have le := kept.ordered id other _ _ _ _ _ _ waits waited later
        omega

/-! ## Steps and runs -/

theorem getOrCreate_files (base : Option Revision) (head : Revision) (change : Change) :
    (Change.getOrCreate base head (some change)).1.files = change.files ∧
      (Change.getOrCreate base head (some change)).1.filesEventsTo = change.filesEventsTo := by
  rw [Change.getOrCreate]
  split <;> exact ⟨rfl, rfl⟩

/-- No path's stored reading is replaced by an earlier one. -/
def Forward (s s' : ListState) : Prop := ∀ path, s.readAt path ≤ s'.readAt path

theorem orderly_step {next : ListState} (kept : Kept s) {event : ListStep} {out : Unit} (orderly : Orderly s event)
    (moves : s.step event = some (next, out)) : Kept next ∧ Forward s next := by
  have still : Forward s s := fun path => Nat.le_refl _
  cases event with
  | edit path row logged =>
    cases moves
    exact ⟨kept.fewer rfl rfl rfl rfl rfl fun _ _ _ _ waits => waits, still⟩
  | resolve base head =>
    cases moves
    obtain ⟨files, seq⟩ := getOrCreate_files base head s.change
    exact ⟨kept.fewer files seq rfl rfl rfl fun _ _ _ _ waits => waits, still⟩
  | begin listing =>
    rw [ListState.step] at moves
    split at moves
    · cases moves
    · cases moves
      exact ⟨kept.updated (by simp), still⟩
  | count id =>
    rw [ListState.step] at moves
    split at moves
    · cases moves
      exact ⟨kept.updated (by simp), still⟩
    · cases moves
  | read id seen =>
    rw [ListState.step] at moves
    split at moves
    · rename_i listing eventsTo found
      split at moves
      · cases moves
        exact ⟨kept.updated (by simp), still⟩
      · cases moves
        obtain ⟨older, last⟩ := orderly listing eventsTo found
        exact ⟨kept.read older last seen, still⟩
    · cases moves
  | store id at' =>
    rw [ListState.step] at moves
    split at moves
    · rename_i listing eventsTo reading found
      split at moves
      · rename_i change wrote writes
        cases moves
        have writes' := write_writes (kept.reads id _ _ _ found).2.2 writes
        refine ⟨kept.stored found writes' (orderly listing eventsTo reading found), ?_⟩
        intro path
        change s.readAt path ≤ if (wrote && reading.covers path) = true then reading.time else s.readAt path
        split
        · rename_i both
          obtain ⟨wrote', covers⟩ := Bool.and_eq_true_iff.mp both
          have older : s.change.newerListStored eventsTo = false := by
            have decides := writes'.decides
            rw [wrote'] at decides
            simpa using decides.symm
          exact (kept.timely id _ _ _ found).due older path covers
        · exact Nat.le_refl _
      · cases moves
        exact ⟨kept.updated (by simp), still⟩
    · cases moves
  | leave id =>
    obtain ⟨call, -, same⟩ := Option.map_eq_some_iff.mp moves
    cases same
    exact ⟨kept.updated (by simp), still⟩

/-- In every run whose steps are orderly: no path's stored reading gives way to an earlier
one; the list says of each path what that reading saw, but for git's flags; and a list that
waits and is to be passed over read each of its paths before the reading stored of it. -/
theorem lists_kept {working : Bool} {base : Option Revision} {head : Revision} {before after : List ListStep}
    (orderly : Admits ListState.step Orderly (.start working base head) (before ++ after)) :
    Forward (run ListState.step (.start working base head) before) (run ListState.step (.start working base head) (before ++ after)) ∧
      ∀ s, s = run ListState.step (.start working base head) (before ++ after) →
        (∀ path, contentAt s.change.files path = contentAt (s.readings (s.readAt path)) path) ∧
          ∀ id listing eventsTo reading, Waits s id listing eventsTo reading → s.change.newerListStored eventsTo = true →
            ∀ path, reading.covers path = true → reading.time < s.readAt path := by
  obtain ⟨first, second⟩ := admits_append.mp orderly
  have grows : ∀ {s : ListState} {events : List ListStep}, Kept s → Admits ListState.step Orderly s events →
      Kept (run ListState.step s events) ∧ Forward s (run ListState.step s events) := fun kept admits =>
    run_allowed Forward (fun _ _ => Nat.le_refl _) (fun first second path => Nat.le_trans (first path) (second path)) Kept
      (fun s event next out kept orderly moves => orderly_step kept orderly moves) kept admits
  obtain ⟨middle, -⟩ := grows (kept_start working base head) first
  obtain ⟨last, forward⟩ := grows middle second
  rw [run_append]
  refine ⟨forward, ?_⟩
  rintro s rfl
  exact ⟨fun path => (last.shown path).2, fun id _ _ _ waits => (last.timely id _ _ _ waits).passed⟩

/-! ## Runs that are orderly, and runs that are not -/

def row (path : String) (additions : Int) : ChangeFileRow := ⟨path, "modified", additions, 0, none, false, some false, some false⟩

def seen : Seen := ⟨none, [], 0, none, false, ⟨[], [], [], []⟩, none, none⟩

def head : Revision := .vcs "git" "a"

def listed (id : Nat) (listing : Listing) : List ListStep := [.begin listing, .count id, .read id seen]

/-- A whole list, and then one of a path, edited meanwhile. -/
def followed : List ListStep :=
  [.edit "a.rs" (some (row "a.rs" 1)) true] ++ listed 0 .files ++ [.store 0 "now", .edit "a.rs" (some (row "a.rs" 2)) true] ++
    listed 1 (.paths ["a.rs"] (some head)) ++ [.store 1 "later"]

theorem followed_orderly : Admits ListState.step Orderly (.start true (some head) .working) ([] ++ followed) := by
  refine ⟨trivial, trivial, trivial, ?_, ?_, trivial, trivial, trivial, ?_, ?_, trivial⟩
  · intro listing eventsTo found
    cases found
    refine ⟨rfl, ?_⟩
    intro other listing' eventsTo' reading' waits
    match other with
    | 0 => cases waits
    | _ + 1 => cases waits
  · intro listing eventsTo reading waits _ other listing' eventsTo' reading' waits'
    cases waits
    match other with
    | 0 =>
      cases waits'
      exact ⟨fun _ => Nat.le_refl _, fun _ _ covers => covers⟩
    | _ + 1 => cases waits'
  · intro listing eventsTo found
    cases found
    refine ⟨rfl, ?_⟩
    intro other listing' eventsTo' reading' waits
    match other with
    | 0 => cases waits
    | 1 => cases waits
    | _ + 2 => cases waits
  · intro listing eventsTo reading waits _ other listing' eventsTo' reading' waits'
    cases waits
    match other with
    | 0 => cases waits'
    | 1 =>
      cases waits'
      exact ⟨fun _ => Nat.le_refl _, fun _ _ covers => covers⟩
    | _ + 2 => cases waits'

theorem lists_kept_followed :
    Forward (run ListState.step (.start true (some head) .working) []) (run ListState.step (.start true (some head) .working) followed) ∧
      contentAt (run ListState.step (.start true (some head) .working) followed).change.files "a.rs" = some (unflagged (row "a.rs" 2)) := by
  obtain ⟨forward, rest⟩ := lists_kept followed_orderly
  refine ⟨forward, ?_⟩
  have shown := (rest _ rfl).1 "a.rs"
  exact shown

/-- Two whole lists of one seq, an edit that is not logged between them. -/
def tied : List ListStep :=
  [.edit "a.rs" (some (row "a.rs" 1)) true] ++ listed 0 .files ++ [.edit "a.rs" (some (row "a.rs" 2)) false] ++ listed 1 .files ++
    [.store 1 "now"]

/-- A whole list of a logged edit waits while a path's list is stored for a later one. -/
def partly : List ListStep :=
  [.edit "b.rs" (some (row "b.rs" 1)) true] ++ listed 0 .files ++ [.store 0 "now", .edit "b.rs" (some (row "b.rs" 2)) true] ++
    listed 1 .files ++ [.edit "a.rs" (some (row "a.rs" 1)) true] ++ listed 2 (.paths ["a.rs"] (some head)) ++ [.store 2 "later"]

theorem older_list_stored_and_newer_dropped :
    ((run ListState.step (.start true (some head) .working) tied).readAt "a.rs" = 2 ∧
      (run ListState.step (.start true (some head) .working) (tied ++ [.store 0 "late"])).readAt "a.rs" = 1) ∧
      ∃ reading, Waits (run ListState.step (.start true (some head) .working) partly) 1 .files 2 reading ∧
        (run ListState.step (.start true (some head) .working) partly).change.newerListStored 2 = true ∧ reading.covers "b.rs" = true ∧
          (run ListState.step (.start true (some head) .working) partly).readAt "b.rs" < reading.time ∧
            contentAt (run ListState.step (.start true (some head) .working) (partly ++ [.store 1 "late"])).change.files "b.rs" =
              some (unflagged (row "b.rs" 1)) := by
  refine ⟨⟨?_, ?_⟩, _, rfl, ?_, ?_, ?_, ?_⟩
  · decide +kernel
  · decide +kernel
  · decide +kernel
  · decide +kernel
  · decide +kernel
  · rfl

end Oxplow.Proofs.ListReads
