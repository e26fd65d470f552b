import Mathlib.Data.List.Nodup
import Oxplow.Metrics.Pacing

/-! Paced runs lose no event. A run that has begun for an event answers for every deferral
up to it, and a clear takes away only a row that such a run answers for. -/

namespace Oxplow.Proofs.PacedRuns
open Library Paced

/-! ## The table -/

/-- `PRIMARY KEY (owner, id)`. -/
def Keyed (rows : List PendingRun) : Prop := (rows.map PendingRun.job).Nodup

variable {rows : List PendingRun}

theorem Keyed.same (keyed : Keyed rows) {a b : PendingRun} (first : a ∈ rows) (second : b ∈ rows) (job : a.job = b.job) :
    a = b := List.inj_on_of_nodup_map keyed first second job

def marked (job : Job) (seq now : Int) (row : PendingRun) : PendingRun :=
  if row.job == job then { row with eventSeq := max row.eventSeq seq, touched := now } else row

theorem marked_job (job : Job) (seq now : Int) (row : PendingRun) : (marked job seq now row).job = row.job := by
  unfold marked
  split
  · rfl
  · rfl

/-- A mark updates the job's row, or makes one. -/
theorem markPending_cases (rows : List PendingRun) (job : Job) (seq now : Int) :
    (∃ row ∈ rows, row.job = job) ∧ markPending rows job seq now = rows.map (marked job seq now) ∨
      (∀ row ∈ rows, row.job ≠ job) ∧ markPending rows job seq now = rows ++ [⟨job, seq, now, now⟩] := by
  unfold markPending
  by_cases held : rows.any (·.job == job) = true
  · obtain ⟨row, member, same⟩ := List.any_eq_true.mp held
    exact .inl ⟨⟨row, member, beq_iff_eq.mp same⟩, if_pos held⟩
  · refine .inr ⟨?_, if_neg held⟩
    intro row member same
    exact held (List.any_eq_true.mpr ⟨row, member, beq_iff_eq.mpr same⟩)

theorem markPending_keyed (keyed : Keyed rows) (job : Job) (seq now : Int) : Keyed (markPending rows job seq now) := by
  rcases markPending_cases rows job seq now with ⟨_, same⟩ | ⟨fresh, same⟩
  · rw [Keyed, same, List.map_map]
    have jobs : PendingRun.job ∘ marked job seq now = PendingRun.job := funext (marked_job job seq now)
    rw [jobs]
    exact keyed
  · rw [Keyed, same, List.map_append, List.nodup_append_comm]
    apply List.nodup_cons.mpr
    refine ⟨?_, keyed⟩
    intro member
    obtain ⟨row, inside, named⟩ := List.mem_map.mp member
    exact fresh row inside named

variable {row : PendingRun}

theorem marked_other {job other : Job} (differ : other ≠ job) (seq now : Int) (own : row.job = job) :
    marked other seq now row = row := by
  apply if_neg
  intro same
  exact differ ((beq_iff_eq.mp same).symm.trans own)

theorem marked_own {job : Job} (seq now : Int) (own : row.job = job) :
    marked job seq now row = { row with eventSeq := max row.eventSeq seq, touched := now } := if_pos (beq_iff_eq.mpr own)

/-- A mark of another job leaves the job's row. -/
theorem mem_markPending_other {job other : Job} (differ : other ≠ job) (seq now : Int) (own : row.job = job) :
    row ∈ markPending rows other seq now ↔ row ∈ rows := by
  rcases markPending_cases rows other seq now with ⟨_, same⟩ | ⟨_, same⟩
  · rw [same, List.mem_map]
    constructor
    · rintro ⟨before, member, rfl⟩
      have named : before.job = job := (marked_job other seq now before).symm.trans own
      rw [marked_other differ seq now named]
      exact member
    · intro member
      exact ⟨row, member, marked_other differ seq now own⟩
  · rw [same, List.mem_append, List.mem_singleton]
    constructor
    · rintro (member | rfl)
      · exact member
      · exact absurd own differ
    · exact .inl

/-- The job's row after a mark of the job. -/
theorem mem_markPending_own {job : Job} {seq now : Int} (member : row ∈ markPending rows job seq now) (own : row.job = job) :
    (∃ before ∈ rows, before.job = job ∧ row = { before with eventSeq := max before.eventSeq seq, touched := now }) ∨
      (∀ before ∈ rows, before.job ≠ job) ∧ row = ⟨job, seq, now, now⟩ := by
  rcases markPending_cases rows job seq now with ⟨_, same⟩ | ⟨fresh, same⟩
  · rw [same, List.mem_map] at member
    obtain ⟨before, inside, rfl⟩ := member
    have named : before.job = job := (marked_job job seq now before).symm.trans own
    exact .inl ⟨before, inside, named, marked_own seq now named⟩
  · rw [same, List.mem_append, List.mem_singleton] at member
    rcases member with inside | rfl
    · exact absurd own (fresh row inside)
    · exact .inr ⟨fresh, rfl⟩

/-- After a mark the job has a row, at or past the event and whatever its row was at. -/
theorem markPending_covers (rows : List PendingRun) (job : Job) (seq now : Int) :
    ∃ row ∈ markPending rows job seq now, row.job = job ∧ seq ≤ row.eventSeq := by
  rcases markPending_cases rows job seq now with ⟨⟨before, member, own⟩, same⟩ | ⟨_, same⟩
  · rw [same]
    refine ⟨_, List.mem_map_of_mem member, (marked_job job seq now before).trans own, ?_⟩
    rw [marked_own seq now own]
    exact Int.le_max_right _ _
  · rw [same]
    exact ⟨_, List.mem_append_right _ (List.mem_singleton.mpr rfl), rfl, Int.le_refl _⟩

theorem mem_clearPending {job : Job} {seq : Int} :
    row ∈ (clearPending rows job seq).1 ↔ row ∈ rows ∧ (row.job = job → seq < row.eventSeq) := by
  simp [clearPending, Classical.or_iff_not_imp_left]

theorem cleared_iff {job : Job} {seq : Int} :
    (clearPending rows job seq).2 = true ↔ ∃ row ∈ rows, row.job = job ∧ row.eventSeq ≤ seq := by
  simp [clearPending]

/-! ## What a step does -/

/-- What a step of a pass can do, on the first of its rows. -/
inductive Turn (rows : List PendingRun) (pass : Pass) (p : PendingRun) : List PendingRun → Pass → Output → Prop
  | skip : Turn rows pass p rows pass.next .quiet
  | gone : Turn rows pass p rows { pass with phase := .clearing i64Max } (.gone p.job)
  | due : Turn rows pass p rows { pass with phase := .due } .quiet
  | began : Turn rows pass p rows { pass with phase := .running } (.began p.job p.eventSeq)
  | expired : Turn rows pass p rows { pass with phase := .clearing p.eventSeq } (.expired p.job)
  | finished (running : pass.phase = .running) : Turn rows pass p rows { pass with phase := .clearing p.eventSeq } .quiet
  | cleared {seq : Int} (clearing : pass.phase = .clearing seq) :
      Turn rows pass p (clearPending rows p.job seq).1 pass.next
        (if (clearPending rows p.job seq).2 then .cleared p.job else .quiet)
  | ended : Turn rows pass p rows { pass with pending := [] } .quiet

inductive Moves (s : State) : Event → State → Output → Prop
  | mark (job : Job) (seq now : Int) : Moves s (.mark job seq now) { s with rows := markPending s.rows job seq now } .quiet
  | list (now : Int) (idle : Option Nat) :
      Moves s (.list now idle) { s with passes := s.passes ++ [⟨now, idle, listPending s.rows, .deciding⟩] } .quiet
  | turn {event : Event} {i : Nat} {pass turned : Pass} {p : PendingRun} {rest rows : List PendingRun} {out : Output}
      (unmarked : ∀ job, event.markOf job = none) (listed : pass ∈ s.passes) (head : pass.pending = p :: rest)
      (turn : Turn s.rows pass p rows turned out) : Moves s event ⟨rows, s.passes.set i turned⟩ out

theorem act_moves {s next : State} {event : Event} {i : Nat} {out : Output}
    {body : Pass → PendingRun → Option (List PendingRun × Pass × Output)} (unmarked : ∀ job, event.markOf job = none)
    (turns : ∀ pass p rows turned out, body pass p = some (rows, turned, out) → Turn s.rows pass p rows turned out)
    (acts : s.act i body = some (next, out)) : Moves s event next out := by
  simp only [State.act, Option.bind_eq_some_iff, Option.map_eq_some_iff] at acts
  obtain ⟨pass, found, p, head, ⟨rows, turned, out'⟩, answer, same⟩ := acts
  cases same
  obtain ⟨rest, pending⟩ := List.head?_eq_some_iff.mp head
  exact .turn unmarked (List.mem_of_getElem? found) pending (turns pass p rows turned out' answer)

theorem step_moves {s next : State} {event : Event} {out : Output} (moved : s.step event = some (next, out)) :
    Moves s event next out := by
  cases event with
  | mark job seq now =>
    cases moved
    exact .mark job seq now
  | list now idle =>
    cases moved
    exact .list now idle
  | decide i pacing sinceRun =>
    apply act_moves (fun _ => rfl) ?_ moved
    intro pass p rows turned out answer
    unfold decideOn at answer
    split at answer
    · cases pacing with
      | none =>
        cases answer
        exact .gone
      | some pacing =>
        dsimp only at answer
        split at answer
        · cases answer
          exact .due
        · cases answer
          exact .skip
    · cases answer
  | start i answered =>
    apply act_moves (fun _ => rfl) ?_ moved
    intro pass p rows turned out answer
    cases answered with
    | began =>
      rw [startOn] at answer
      split at answer
      · cases answer
        exact .began
      · cases answer
    | expired =>
      rw [startOn] at answer
      split at answer
      · cases answer
        exact .expired
      · cases answer
    | busy =>
      rw [startOn] at answer
      split at answer
      · cases answer
        exact .skip
      · cases answer
  | finish i busy =>
    apply act_moves (fun _ => rfl) ?_ moved
    intro pass p rows turned out answer
    unfold finishOn at answer
    split at answer
    · rename_i running
      cases busy with
      | true =>
        cases answer
        exact .skip
      | false =>
        cases answer
        exact .finished running
    · cases answer
  | clear i =>
    apply act_moves (fun _ => rfl) ?_ moved
    intro pass p rows turned out answer
    unfold clearOn at answer
    split at answer
    · rename_i clearing
      cases answer
      exact .cleared clearing
    · cases answer
  | fail i =>
    apply act_moves (fun _ => rfl) ?_ moved
    intro pass p rows turned out answer
    cases answer
    exact .ended

/-! ## What holds of a job -/

/-- What a pass under way on the job's row knows of the deferrals left. -/
def Ready (left : List (Int × Int)) (p : PendingRun) : Phase → Prop
  | .deciding | .due => True
  | .running => ∀ u ∈ left, p.eventSeq < u.1
  | .clearing seq => seq = p.eventSeq ∧ ∀ u ∈ left, p.eventSeq < u.1

structure Kept (job : Job) (s : State) (log : Log) : Prop where
  keyed : Keyed s.rows
  covers : ∀ u ∈ unrun job log, ∃ row ∈ s.rows, row.job = job ∧ u.1 ≤ row.eventSeq
  since : ∀ row ∈ s.rows, row.job = job → ((waiting job log).head?.map (·.2)) = some row.since
  held : waiting job log ≠ [] → ∃ row ∈ s.rows, row.job = job
  bounded : ∀ row ∈ s.rows, row.job = job → ∃ m ∈ marks job log, row.eventSeq ≤ m.1
  listed : ∀ pass ∈ s.passes, ∀ p ∈ pass.pending, p.job = job → ∃ m ∈ marks job log, p.eventSeq ≤ m.1
  ready : ∀ pass ∈ s.passes, ∀ p, pass.pending.head? = some p → p.job = job → Ready (unrun job log) p pass.phase

/-- The job's events arrive in increasing order, and it stays declared and paced with
their payloads. -/
structure Steady (job : Job) (log : Log) : Prop where
  increasing : (marks job log).Pairwise fun a b => a.1 < b.1
  keeps : ∀ entry ∈ log, entry.2.keeps job

theorem Steady.before {job : Job} {log : Log} {entry : Event × Output} (steady : Steady job (log ++ [entry])) : Steady job log where
  increasing := by
    have increasing := steady.increasing
    rw [marks, List.filterMap_append] at increasing
    exact (List.pairwise_append.mp increasing).1
  keeps := fun other member => steady.keeps other (List.mem_append_left _ member)

section
variable {job : Job} {log : Log} {event : Event} {out : Output}

theorem marks_concat : marks job (log ++ [(event, out)]) = marks job log ++ (event.markOf job).toList := by
  rw [marks, List.filterMap_append]
  cases marked : event.markOf job with
  | none => simp [marks, marked]
  | some mark => simp [marks, marked]

theorem unrun_concat : unrun job (log ++ [(event, out)]) =
    ((runFor job out).elim (unrun job log) fun seq => (unrun job log).filter (seq < ·.1)) ++ (event.markOf job).toList := by
  rw [unrun, List.foldl_append]
  rfl

theorem waiting_concat : waiting job (log ++ [(event, out)]) =
    (if out = .cleared job then [] else waiting job log) ++ (event.markOf job).toList := by
  rw [waiting, List.foldl_append]
  rfl

/-- A step that neither defers the job, runs it nor clears it says nothing new of it. -/
theorem quiet_log (unmarked : event.markOf job = none) (unran : runFor job out = none) (uncleared : out ≠ .cleared job) :
    marks job (log ++ [(event, out)]) = marks job log ∧ unrun job (log ++ [(event, out)]) = unrun job log ∧
      waiting job (log ++ [(event, out)]) = waiting job log := by
  rw [marks_concat, unrun_concat, waiting_concat, unmarked, unran, if_neg uncleared]
  simp

end

/-! ## Steps -/

section
variable {job : Job} {s : State} {log : Log}

theorem Kept.mark (kept : Kept job s log) {seq now : Int} (steady : Steady job (log ++ [(.mark job seq now, .quiet)])) :
    Kept job { s with rows := markPending s.rows job seq now } (log ++ [(.mark job seq now, .quiet)]) := by
  have mark : (Event.mark job seq now).markOf job = some (seq, now) := if_pos rfl
  have marks' : marks job (log ++ [(.mark job seq now, .quiet)]) = marks job log ++ [(seq, now)] := by
    rw [marks_concat, mark]
    rfl
  have unrun' : unrun job (log ++ [(.mark job seq now, .quiet)]) = unrun job log ++ [(seq, now)] := by
    rw [unrun_concat, mark]
    rfl
  have waiting' : waiting job (log ++ [(.mark job seq now, .quiet)]) = waiting job log ++ [(seq, now)] := by
    rw [waiting_concat, mark]
    rfl
  have newer : ∀ m ∈ marks job log, m.1 < seq := by
    have increasing := steady.increasing
    rw [marks'] at increasing
    exact fun m member => (List.pairwise_append.mp increasing).2.2 m member (seq, now) List.mem_cons_self
  obtain ⟨covering, covers, own, reaches⟩ := markPending_covers s.rows job seq now
  refine ⟨markPending_keyed kept.keyed job seq now, ?_, ?_, ?_, ?_, ?_, ?_⟩
  · rw [unrun']
    intro u member
    rcases List.mem_append.mp member with earlier | last
    · obtain ⟨row, inside, named, reach⟩ := kept.covers u earlier
      obtain ⟨m, marked, bound⟩ := kept.bounded row inside named
      have before := newer m marked
      exact ⟨covering, covers, own, by omega⟩
    · rw [List.mem_singleton.mp last]
      exact ⟨covering, covers, own, reaches⟩
  · rw [waiting']
    intro row member named
    rcases mem_markPending_own member named with ⟨before, inside, named', rfl⟩ | ⟨fresh, rfl⟩
    · have since := kept.since before inside named'
      cases waits : waiting job log with
      | nil =>
        rw [waits] at since
        cases since
      | cons first rest =>
        rw [waits] at since
        exact since
    · have none_ : waiting job log = [] := by
        by_contra some_
        obtain ⟨row, inside, named'⟩ := kept.held some_
        exact fresh row inside named'
      rw [none_]
      rfl
  · exact fun _ => ⟨covering, covers, own⟩
  · rw [marks']
    intro row member named
    rcases mem_markPending_own member named with ⟨before, inside, named', rfl⟩ | ⟨_, rfl⟩
    · obtain ⟨m, marked, bound⟩ := kept.bounded before inside named'
      have older := newer m marked
      refine ⟨(seq, now), List.mem_append_right _ List.mem_cons_self, ?_⟩
      dsimp only
      omega
    · exact ⟨(seq, now), List.mem_append_right _ List.mem_cons_self, Int.le_refl _⟩
  · rw [marks']
    intro pass member p inside named
    obtain ⟨m, marked, bound⟩ := kept.listed pass member p inside named
    exact ⟨m, List.mem_append_left _ marked, bound⟩
  · rw [unrun']
    intro pass member p head named
    have ready := kept.ready pass member p head named
    obtain ⟨m, marked, bound⟩ := kept.listed pass member p (List.mem_of_head? head) named
    have older := newer m marked
    have past : (∀ u ∈ unrun job log, p.eventSeq < u.1) → ∀ u ∈ unrun job log ++ [(seq, now)], p.eventSeq < u.1 := by
      intro all u inside
      rcases List.mem_append.mp inside with earlier | last
      · exact all u earlier
      · rw [List.mem_singleton.mp last]
        dsimp only
        omega
    cases phase : pass.phase with
    | deciding => trivial
    | due => trivial
    | running =>
      rw [phase] at ready
      exact past ready
    | clearing seq =>
      rw [phase] at ready
      exact ⟨ready.1, past ready.2⟩

theorem Kept.mark_other (kept : Kept job s log) {other : Job} (differ : other ≠ job) (seq now : Int) :
    Kept job { s with rows := markPending s.rows other seq now } (log ++ [(.mark other seq now, .quiet)]) := by
  have unmarked : (Event.mark other seq now).markOf job = none := if_neg differ
  obtain ⟨marks', unrun', waiting'⟩ := @quiet_log job log (.mark other seq now) .quiet unmarked rfl (fun same => by cases same)
  have rows : ∀ row, row.job = job → (row ∈ markPending s.rows other seq now ↔ row ∈ s.rows) :=
    fun row own => mem_markPending_other differ seq now own
  refine ⟨markPending_keyed kept.keyed other seq now, ?_, ?_, ?_, ?_, ?_, ?_⟩
  · rw [unrun']
    intro u member
    obtain ⟨row, inside, own, reach⟩ := kept.covers u member
    exact ⟨row, (rows row own).mpr inside, own, reach⟩
  · rw [waiting']
    exact fun row member own => kept.since row ((rows row own).mp member) own
  · rw [waiting']
    intro some_
    obtain ⟨row, inside, own⟩ := kept.held some_
    exact ⟨row, (rows row own).mpr inside, own⟩
  · rw [marks']
    exact fun row member own => kept.bounded row ((rows row own).mp member) own
  · rw [marks']
    exact kept.listed
  · rw [unrun']
    exact kept.ready

theorem Kept.list (kept : Kept job s log) (now : Int) (idle : Option Nat) :
    Kept job { s with passes := s.passes ++ [⟨now, idle, listPending s.rows, .deciding⟩] } (log ++ [(.list now idle, .quiet)]) := by
  obtain ⟨marks', unrun', waiting'⟩ := @quiet_log job log (.list now idle) .quiet rfl rfl (fun same => by cases same)
  refine ⟨kept.keyed, unrun' ▸ kept.covers, waiting' ▸ kept.since, waiting' ▸ kept.held, marks' ▸ kept.bounded, ?_, ?_⟩
  · rw [marks']
    intro pass member p inside own
    rcases List.mem_append.mp member with before | new
    · exact kept.listed pass before p inside own
    · rw [List.mem_singleton.mp new] at inside
      exact kept.bounded p (List.mem_mergeSort.mp inside) own
  · rw [unrun']
    intro pass member p head own
    rcases List.mem_append.mp member with before | new
    · exact kept.ready pass before p head own
    · rw [List.mem_singleton.mp new]
      trivial

variable {event : Event} {out : Output} {i : Nat} {pass turned : Pass} {p : PendingRun} {rest rows : List PendingRun}

/-- A pass that moves goes on with the rows it listed. -/
theorem Kept.listed_turn (kept : Kept job s log) (listed : pass ∈ s.passes) (within : ∀ q ∈ turned.pending, q ∈ pass.pending) :
    ∀ other ∈ s.passes.set i turned, ∀ q ∈ other.pending, q.job = job → ∃ m ∈ marks job log, q.eventSeq ≤ m.1 := by
  intro other member q inside own
  rcases List.mem_or_eq_of_mem_set member with before | rfl
  · exact kept.listed other before q inside own
  · exact kept.listed pass listed q (within q inside) own

theorem Kept.ready_turn {left : List (Int × Int)} (kept : Kept job s log) (fewer : ∀ u ∈ left, u ∈ unrun job log)
    (ready : ∀ q, turned.pending.head? = some q → q.job = job → Ready left q turned.phase) :
    ∀ other ∈ s.passes.set i turned, ∀ q, other.pending.head? = some q → q.job = job → Ready left q other.phase := by
  intro other member q head own
  rcases List.mem_or_eq_of_mem_set member with before | rfl
  · have was := kept.ready other before q head own
    cases phase : other.phase with
    | deciding => trivial
    | due => trivial
    | running =>
      rw [phase] at was
      exact fun u inside => was u (fewer u inside)
    | clearing seq =>
      rw [phase] at was
      exact ⟨was.1, fun u inside => was.2 u (fewer u inside)⟩
  · exact ready q head own

/-- A turn that leaves the job's row. -/
theorem Kept.quiet_turn (kept : Kept job s log) (listed : pass ∈ s.passes) (keyed : Keyed rows)
    (same : ∀ row, row.job = job → (row ∈ rows ↔ row ∈ s.rows)) (unmarked : event.markOf job = none)
    (unran : runFor job out = none) (uncleared : out ≠ .cleared job) (within : ∀ q ∈ turned.pending, q ∈ pass.pending)
    (ready : ∀ q, turned.pending.head? = some q → q.job = job → Ready (unrun job log) q turned.phase) :
    Kept job ⟨rows, s.passes.set i turned⟩ (log ++ [(event, out)]) := by
  obtain ⟨marks', unrun', waiting'⟩ := @quiet_log job log event out unmarked unran uncleared
  refine ⟨keyed, ?_, ?_, ?_, ?_, marks' ▸ kept.listed_turn listed within, unrun' ▸ kept.ready_turn (fun _ member => member) ready⟩
  · rw [unrun']
    intro u member
    obtain ⟨row, inside, own, reach⟩ := kept.covers u member
    exact ⟨row, (same row own).mpr inside, own, reach⟩
  · rw [waiting']
    exact fun row member own => kept.since row ((same row own).mp member) own
  · rw [waiting']
    intro some_
    obtain ⟨row, inside, own⟩ := kept.held some_
    exact ⟨row, (same row own).mpr inside, own⟩
  · rw [marks']
    exact fun row member own => kept.bounded row ((same row own).mp member) own

/-- A run that begins answers for every deferral up to its event. -/
theorem Kept.began (kept : Kept job s log) (listed : pass ∈ s.passes) (head : pass.pending = p :: rest) (own : p.job = job)
    (unmarked : event.markOf job = none) :
    Kept job ⟨s.rows, s.passes.set i { pass with phase := .running }⟩ (log ++ [(event, .began p.job p.eventSeq)]) := by
  have ran : runFor job (.began p.job p.eventSeq) = some p.eventSeq := if_pos own
  have marks' : marks job (log ++ [(event, .began p.job p.eventSeq)]) = marks job log := by
    rw [marks_concat, unmarked]
    exact List.append_nil _
  have unrun' : unrun job (log ++ [(event, .began p.job p.eventSeq)]) = (unrun job log).filter (p.eventSeq < ·.1) := by
    rw [unrun_concat, unmarked, ran]
    exact List.append_nil _
  have waiting' : waiting job (log ++ [(event, .began p.job p.eventSeq)]) = waiting job log := by
    rw [waiting_concat, unmarked, if_neg (fun same => by cases same)]
    exact List.append_nil _
  have fewer : ∀ u ∈ (unrun job log).filter (p.eventSeq < ·.1), u ∈ unrun job log := fun _ member => (List.mem_filter.mp member).1
  refine ⟨kept.keyed, ?_, waiting' ▸ kept.since, waiting' ▸ kept.held, marks' ▸ kept.bounded,
    marks' ▸ kept.listed_turn listed (fun _ member => member), unrun' ▸ kept.ready_turn fewer ?_⟩
  · rw [unrun']
    exact fun u member => kept.covers u (fewer u member)
  · intro q first _ u member
    have same : p = q := by simpa [head] using first
    rw [← same]
    exact of_decide_eq_true (List.mem_filter.mp member).2

/-- A clear takes the job's row only when no deferral is left. -/
theorem Kept.cleared (kept : Kept job s log) (listed : pass ∈ s.passes) (head : pass.pending = p :: rest) (own : p.job = job)
    {seq : Int} (clearing : pass.phase = .clearing seq) (unmarked : event.markOf job = none) :
    Kept job ⟨(clearPending s.rows p.job seq).1, s.passes.set i pass.next⟩
      (log ++ [(event, if (clearPending s.rows p.job seq).2 then .cleared p.job else .quiet)]) := by
  have ready := kept.ready pass listed p (by rw [head]; rfl) own
  rw [clearing] at ready
  obtain ⟨rfl, past⟩ := ready
  have keyed : Keyed (clearPending s.rows p.job p.eventSeq).1 := kept.keyed.sublist (List.filter_sublist.map _)
  have within : ∀ q ∈ pass.next.pending, q ∈ pass.pending := fun q member => List.mem_of_mem_tail member
  have later : ∀ left, ∀ q, pass.next.pending.head? = some q → q.job = job → Ready left q pass.next.phase := fun _ _ _ _ => trivial
  by_cases flag : (clearPending s.rows p.job p.eventSeq).2 = true
  · rw [if_pos flag]
    obtain ⟨row, inside, named, reached⟩ := cleared_iff.mp flag
    have named' := named.trans own
    have none_ : unrun job log = [] := by
      apply List.eq_nil_iff_forall_not_mem.mpr
      intro u member
      obtain ⟨other, inside', own', reach⟩ := kept.covers u member
      rw [kept.keyed.same inside' inside (own'.trans named'.symm)] at reach
      have before := past u member
      omega
    have gone : ∀ other ∈ (clearPending s.rows p.job p.eventSeq).1, other.job ≠ job := by
      intro other member own'
      obtain ⟨inside', stays⟩ := mem_clearPending.mp member
      have beyond := stays (own'.trans own.symm)
      rw [kept.keyed.same inside' inside (own'.trans named'.symm)] at beyond
      omega
    have marks' : marks job (log ++ [(event, .cleared p.job)]) = marks job log := by
      rw [marks_concat, unmarked]
      exact List.append_nil _
    have unrun' : unrun job (log ++ [(event, .cleared p.job)]) = [] := by
      rw [unrun_concat, unmarked, none_]
      rfl
    have waiting' : waiting job (log ++ [(event, .cleared p.job)]) = [] := by
      rw [waiting_concat, unmarked, if_pos (congrArg Output.cleared own)]
      rfl
    refine ⟨keyed, ?_, fun other member own' => absurd own' (gone other member), fun some_ => absurd waiting' some_,
      fun other member own' => absurd own' (gone other member), marks' ▸ kept.listed_turn listed within,
      unrun' ▸ kept.ready_turn ?_ (later [])⟩
    · rw [unrun']
      exact fun u member => absurd member List.not_mem_nil
    · exact fun u member => absurd member List.not_mem_nil
  · rw [if_neg flag]
    apply kept.quiet_turn listed keyed ?_ unmarked rfl (fun same => by cases same) within (later _)
    intro row named
    rw [mem_clearPending]
    constructor
    · exact fun both => both.1
    · intro inside
      refine ⟨inside, fun named' => ?_⟩
      by_contra reached
      exact flag (cleared_iff.mpr ⟨row, inside, named', Int.not_lt.mp reached⟩)

theorem Kept.turn (kept : Kept job s log) (steady : Steady job (log ++ [(event, out)])) (unmarked : event.markOf job = none)
    (listed : pass ∈ s.passes) (head : pass.pending = p :: rest) (turn : Turn s.rows pass p rows turned out) :
    Kept job ⟨rows, s.passes.set i turned⟩ (log ++ [(event, out)]) := by
  have keeps : out.keeps job := steady.keeps (event, out) (List.mem_append_right _ List.mem_cons_self)
  have first : ∀ q, pass.pending.head? = some q → p = q := by
    intro q is
    simpa [head] using is
  have rows_ : ∀ row, row.job = job → (row ∈ s.rows ↔ row ∈ s.rows) := fun _ _ => Iff.rfl
  cases turn with
  | skip =>
    exact kept.quiet_turn listed kept.keyed rows_ unmarked rfl (fun same => by cases same)
      (fun q member => List.mem_of_mem_tail member) fun _ _ _ => trivial
  | gone =>
    refine kept.quiet_turn listed kept.keyed rows_ unmarked rfl (fun same => Output.noConfusion same) (fun _ member => member) ?_
    intro q is own
    exact absurd ((congrArg PendingRun.job (first q is)).trans own) keeps
  | due =>
    exact kept.quiet_turn listed kept.keyed rows_ unmarked rfl (fun same => Output.noConfusion same) (fun _ member => member)
      fun _ _ _ => trivial
  | began =>
    by_cases own : p.job = job
    · exact kept.began listed head own unmarked
    · refine kept.quiet_turn listed kept.keyed rows_ unmarked (if_neg own) (fun same => Output.noConfusion same) (fun _ member => member) ?_
      intro q is own'
      exact absurd ((congrArg PendingRun.job (first q is)).trans own') own
  | expired =>
    refine kept.quiet_turn listed kept.keyed rows_ unmarked rfl (fun same => Output.noConfusion same) (fun _ member => member) ?_
    intro q is own
    exact absurd ((congrArg PendingRun.job (first q is)).trans own) keeps
  | finished running =>
    refine kept.quiet_turn listed kept.keyed rows_ unmarked rfl (fun same => Output.noConfusion same) (fun _ member => member) ?_
    intro q is own
    have ready := kept.ready pass listed q is own
    rw [running] at ready
    rw [first q is]
    exact ⟨rfl, ready⟩
  | @cleared seq clearing =>
    by_cases own : p.job = job
    · exact kept.cleared listed head own clearing unmarked
    · have keyed : Keyed (clearPending s.rows p.job seq).1 := kept.keyed.sublist (List.filter_sublist.map _)
      have same : ∀ row, row.job = job → (row ∈ (clearPending s.rows p.job seq).1 ↔ row ∈ s.rows) := by
        intro row named
        rw [mem_clearPending]
        exact ⟨fun both => both.1, fun inside => ⟨inside, fun named' => absurd (named'.symm.trans named) own⟩⟩
      refine kept.quiet_turn listed keyed same unmarked ?_ ?_ (fun q member => List.mem_of_mem_tail member) fun _ _ _ => trivial
      · split
        · rfl
        · rfl
      · split
        · exact fun same => own (Output.cleared.inj same)
        · exact Output.noConfusion
  | ended =>
    exact kept.quiet_turn listed kept.keyed rows_ unmarked rfl (fun same => by cases same)
      (fun q member => absurd member List.not_mem_nil) fun _ is => by cases is

theorem Kept.step {next : State} (kept : Kept job s log) (steady : Steady job (log ++ [(event, out)]))
    (moved : s.step event = some (next, out)) : Kept job next (log ++ [(event, out)]) := by
  cases step_moves moved with
  | mark other seq now =>
    by_cases own : other = job
    · subst own
      exact kept.mark steady
    · exact kept.mark_other own seq now
  | list now idle => exact kept.list now idle
  | turn unmarked listed head turn => exact kept.turn steady (unmarked job) listed head turn

end

/-! ## Runs -/

theorem kept_start (job : Job) : Kept job .start [] where
  keyed := List.nodup_nil
  covers := fun _ member => absurd member List.not_mem_nil
  since := fun _ member => absurd member List.not_mem_nil
  held := fun some_ => absurd rfl some_
  bounded := fun _ member => absurd member List.not_mem_nil
  listed := fun _ member => absurd member List.not_mem_nil
  ready := fun _ member => absurd member List.not_mem_nil

theorem run_kept {job : Job} {events : List Event} (steady : Steady job (State.log events)) :
    Kept job (State.run events) (State.log events) := by
  have all := Machine.run_invariant (fun (s : State) (log : Log) => Steady job log → Kept job s log)
    (fun s log event next out kept moved steady => (kept steady.before).step steady moved) [] (fun _ => kept_start job) events
  exact all steady

/-- While the job stays declared and paced with its events' payloads, every deferral with no
run begun since for an event at or past its own is covered by the job's row, and the row's
`since` is the time of the first deferral since the job last had no row. -/
theorem paced_runs {job : Job} {events : List Event} (steady : Steady job (State.log events)) :
    (∀ u ∈ unrun job (State.log events), ∃ row ∈ (State.run events).rows, row.job = job ∧ u.1 ≤ row.eventSeq) ∧
      ∀ row ∈ (State.run events).rows, row.job = job →
        (waiting job (State.log events)).head?.map (·.2) = some row.since :=
  ⟨(run_kept steady).covers, (run_kept steady).since⟩

def countJob : Job := ⟨"acme", "count"⟩

/-- A second event comes while the run for the first is under way. -/
def overtaken : List Event :=
  [.mark countJob 1 10, .list 20 none, .decide 0 (some ⟨none, none, none⟩) none, .start 0 .began, .mark countJob 2 30,
    .finish 0 false, .clear 0]

theorem overtaken_ends : (State.run overtaken).rows = [⟨countJob, 2, 10, 30⟩] ∧ marks countJob (State.log overtaken) = [(1, 10), (2, 30)] ∧
    unrun countJob (State.log overtaken) = [(2, 30)] ∧ (State.log overtaken).map (·.2) =
      [.quiet, .quiet, .quiet, .began countJob 1, .quiet, .quiet, .quiet] := by
  decide +kernel

theorem overtaken_steady : Steady countJob (State.log overtaken) where
  increasing := by
    rw [overtaken_ends.2.1]
    decide
  keeps := by
    intro entry member
    have done := List.mem_map_of_mem (f := (·.2)) member
    rw [overtaken_ends.2.2.2] at done
    simp only [List.mem_cons, List.not_mem_nil, or_false] at done
    rcases done with same | same | same | same | same | same | same <;> rw [same] <;> trivial

theorem paced_runs_overtaken :
    (∀ u ∈ unrun countJob (State.log overtaken), ∃ row ∈ (State.run overtaken).rows, row.job = countJob ∧ u.1 ≤ row.eventSeq) ∧
      ∀ row ∈ (State.run overtaken).rows, row.job = countJob →
        (waiting countJob (State.log overtaken)).head?.map (·.2) = some row.since :=
  paced_runs overtaken_steady

/-- The row still has the time of the first deferral, which was run for. -/
theorem since_of_the_run_for : ¬ ∀ (job : Job) (events : List Event), Steady job (State.log events) →
    (∀ u ∈ unrun job (State.log events), ∃ row ∈ (State.run events).rows, row.job = job ∧ u.1 ≤ row.eventSeq) ∧
      ∀ row ∈ (State.run events).rows, row.job = job → (unrun job (State.log events)).head?.map (·.2) = some row.since := by
  intro claimed
  have since := (claimed countJob overtaken overtaken_steady).2 ⟨countJob, 2, 10, 30⟩
  rw [overtaken_ends.1, overtaken_ends.2.2.1] at since
  have wrong := since List.mem_cons_self rfl
  cases wrong

end Oxplow.Proofs.PacedRuns
