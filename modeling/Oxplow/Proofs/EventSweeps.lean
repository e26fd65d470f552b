import Mathlib.Data.List.TakeWhile
import Oxplow.Events.EventRetention

/-! A sweep expires the payloads and deletes the bodies that are past their namespaces' windows,
and nothing else. -/

namespace Oxplow.Proofs.EventSweeps
open Oxplow.Library Oxplow.Events Oxplow.Events.Retention

variable {ρ : Type}

/-- The window of a namespace: core's or the project's in its place; none for the rest of core's;
for any other the extension's, cut to the project's. -/
def windowOf (declared : Table String (Int × Int)) (project : Table String RetentionWindow) (ns : String) : Option RetentionWindow :=
  match coreWindows.lookup ns with
  | some core => some ((project.get ns).getD core)
  | none => if ns ∈ coreNamespaces then none else some (extensionWindow declared project ns)

/-- The type has a namespace, which is not empty, before its first dot. -/
def Named (type : String) : Prop := '.' ∈ type.toList ∧ namespaceOf type ≠ ""

/-! ## Names and ranges -/

theorem char_step {c : Char} : ¬ c < '.' ∧ c < '/' ↔ c = '.' := by
  constructor
  · rintro ⟨low, high⟩
    have low : ¬ c.toNat < ('.' : Char).toNat := low
    have high : c.toNat < ('/' : Char).toNat := high
    apply Char.ext
    apply UInt32.toNat_inj.mp
    show c.toNat = 46
    have dot : ('.' : Char).toNat = 46 := rfl
    have slash : ('/' : Char).toNat = 47 := rfl
    omega
  · rintro rfl
    decide

/-- What sorts from `ns.` up to `ns/` is what starts with `ns.`. -/
theorem in_range {ns text : List Char} : ¬ text < ns ++ ['.'] ∧ text < ns ++ ['/'] ↔ ns ++ ['.'] <+: text := by
  induction ns generalizing text with
  | nil =>
    cases text with
    | nil => simp
    | cons c text =>
      rw [List.nil_append, List.nil_append, List.cons_lt_cons_iff, List.cons_lt_cons_iff, List.cons_prefix_cons]
      have step := char_step (c := c)
      constructor
      · rintro ⟨low, high | ⟨-, past⟩⟩
        · exact ⟨(step.mp ⟨fun less => low (.inl less), high⟩).symm, List.nil_prefix⟩
        · exact absurd past (List.not_lt_nil _)
      · rintro ⟨rfl, -⟩
        exact ⟨fun less => less.elim (by decide) fun tail => List.not_lt_nil _ tail.2, .inl (by decide)⟩
  | cons d ns ih =>
    cases text with
    | nil => simp
    | cons c text =>
      rw [List.cons_append, List.cons_append, List.cons_lt_cons_iff, List.cons_lt_cons_iff, List.cons_prefix_cons, ← ih]
      constructor
      · rintro ⟨low, high | ⟨rfl, high⟩⟩
        · exact absurd (.inl high) low
        · exact ⟨rfl, fun less => low (.inr ⟨rfl, less⟩), high⟩
      · rintro ⟨rfl, low, high⟩
        exact ⟨fun less => less.elim (lt_irrefl _) fun tail => low tail.2, .inr ⟨rfl, high⟩⟩

variable {ns type : String}

theorem lt_range : ns ++ "." ≤ type ∧ type < ns ++ "/" ↔ ns.toList ++ ['.'] <+: type.toList := by
  rw [← not_lt, String.lt_iff_toList_lt, String.lt_iff_toList_lt, String.toList_append, String.toList_append]
  exact in_range

theorem namespaceOf_toList (type : String) : (namespaceOf type).toList = type.toList.takeWhile (· ≠ '.') := String.toList_ofList

theorem namespaceOf_no_dot (type : String) : '.' ∉ (namespaceOf type).toList := by
  rw [namespaceOf_toList]
  intro member
  have kept := List.mem_takeWhile_imp member
  simp at kept

/-- A type with a dot starts with its namespace and the dot. -/
theorem starts_named (dotted : '.' ∈ type.toList) : (namespaceOf type).toList ++ ['.'] <+: type.toList := by
  rw [namespaceOf_toList]
  generalize type.toList = text at dotted
  induction text with
  | nil => cases dotted
  | cons c text ih =>
    by_cases dot : c = '.'
    · rw [dot, List.takeWhile_cons_of_neg (by simp)]
      exact ⟨text, rfl⟩
    · rw [List.takeWhile_cons_of_pos (by simpa using dot), List.cons_append, List.cons_prefix_cons]
      refine ⟨rfl, ih ?_⟩
      rcases List.mem_cons.mp dotted with here | later
      · exact absurd here.symm dot
      · exact later

/-- A namespace without a dot has the types that name it. -/
theorem starts_iff (plain : '.' ∉ ns.toList) (dotted : '.' ∈ type.toList) :
    ns.toList ++ ['.'] <+: type.toList ↔ namespaceOf type = ns := by
  constructor
  · rintro ⟨rest, whole⟩
    apply String.toList_inj.mp
    rw [namespaceOf_toList, ← whole, List.append_assoc]
    rw [List.takeWhile_append_of_pos fun c member => by simpa using fun dot : c = '.' => plain (dot ▸ member)]
    simp
  · rintro rfl
    exact starts_named dotted

/-- The range of a namespace is its types. -/
theorem range_iff (plain : '.' ∉ ns.toList) (dotted : '.' ∈ type.toList) :
    (ns ++ "." ≤ type ∧ type < ns ++ "/") ↔ namespaceOf type = ns :=
  lt_range.trans (starts_iff plain dotted)

theorem type_lt_next (dotted : '.' ∈ type.toList) : type < namespaceOf type ++ "/" :=
  ((range_iff (namespaceOf_no_dot type) dotted).mpr rfl).2

/-- A type after another sorts after everything of its namespace, unless it is of it. -/
theorem next_lt {other : String} (dotted : '.' ∈ type.toList) (dotted' : '.' ∈ other.toList) (later : type ≤ other)
    (differ : namespaceOf other ≠ namespaceOf type) : namespaceOf type ++ "/" < other := by
  have low : namespaceOf type ++ "." ≤ type := ((range_iff (namespaceOf_no_dot type) dotted).mpr rfl).1
  rcases lt_trichotomy (namespaceOf type ++ "/") other with past | same | inside
  · exact past
  · exfalso
    rw [← same, String.toList_append] at dotted'
    rcases List.mem_append.mp dotted' with dot | dot
    · exact namespaceOf_no_dot type dot
    · simp at dot
  · exact absurd ((range_iff (namespaceOf_no_dot type) dotted').mp ⟨low.trans later, inside⟩) differ

/-! ## Skipping -/

variable {live : List String} {after : String}

theorem min?_found (member : type ∈ live) (later : after < type) :
    ∃ first, (live.filter fun type => after < type).min? = some first ∧ first ∈ live ∧ after < first ∧ first ≤ type := by
  have inside : type ∈ live.filter fun type => after < type := List.mem_filter.mpr ⟨member, decide_eq_true later⟩
  cases found : (live.filter fun type => after < type).min? with
  | none =>
    rw [List.min?_eq_none_iff.mp found] at inside
    cases inside
  | some first =>
    obtain ⟨here, least⟩ := List.min?_eq_some_iff.mp found
    obtain ⟨known, past⟩ := List.mem_filter.mp here
    exact ⟨first, rfl, known, of_decide_eq_true past, least type inside⟩

/-- Every namespace of a type that comes after is found. -/
theorem skipThrough_complete (named : ∀ type ∈ live, Named type) {fuel : Nat} (member : type ∈ live) (later : after < type)
    (enough : (live.filter fun type => after < type).length < fuel) : namespaceOf type ∈ skipThrough live fuel after := by
  induction fuel generalizing after with
  | zero => exact absurd enough (Nat.not_lt_zero _)
  | succ fuel ih =>
    obtain ⟨first, found, known, past, least⟩ := min?_found member later
    rw [skipThrough, found]
    by_cases same : namespaceOf type = namespaceOf first
    · exact same ▸ List.mem_cons_self ..
    · refine List.mem_cons_of_mem _ (ih (next_lt (named first known).1 (named type member).1 least same) ?_)
      have next : first < namespaceOf first ++ "/" := type_lt_next (named first known).1
      have fewer : (live.filter fun type => namespaceOf first ++ "/" < type).length < (live.filter fun type => after < type).length := by
        have nested : (live.filter fun type => decide (namespaceOf first ++ "/" < type)) =
            (live.filter fun type => decide (after < type)).filter fun type => decide (namespaceOf first ++ "/" < type) := by
          rw [List.filter_filter]
          apply List.filter_congr
          intro other _
          by_cases beyond : namespaceOf first ++ "/" < other
          · simp [beyond, past.trans (next.trans beyond)]
          · simp [beyond]
        rw [nested]
        apply List.length_filter_lt_length_iff_exists.mpr
        exact ⟨first, List.mem_filter.mpr ⟨known, decide_eq_true past⟩, fun beyond => lt_asymm next (of_decide_eq_true beyond)⟩
      omega

/-! ## Windows -/

variable {store : RetentionStore ρ} {project : Table String RetentionWindow}

/-- Every event's type is named, and no body's namespace has a dot. -/
structure Sound (store : RetentionStore ρ) : Prop where
  named : ∀ event ∈ store.events.rows, Named event.type
  plain : ∀ row ∈ store.contents.rows, '.' ∉ row.space.toList

theorem core_listed : ∀ entry ∈ coreWindows, entry.1 ∈ coreNamespaces ∧ '.' ∉ entry.1.toList ∧ coreWindows.lookup entry.1 = some entry.2 := by
  have all : (coreWindows.all fun entry => decide (entry.1 ∈ coreNamespaces) && decide ('.' ∉ entry.1.toList) &&
      decide (coreWindows.lookup entry.1 = some entry.2)) = true := by
    decide +kernel
  intro entry member
  have one := List.all_eq_true.mp all entry member
  simp only [Bool.and_eq_true, decide_eq_true_eq] at one
  exact ⟨one.1.1, one.1.2, one.2⟩

theorem mem_core_of_lookup {core : RetentionWindow} (found : coreWindows.lookup ns = some core) : (ns, core) ∈ coreWindows := by
  have search (entries : List (String × RetentionWindow)) : entries.lookup ns = some core → (ns, core) ∈ entries := by
    induction entries with
    | nil => exact fun none_ => nomatch none_
    | cons entry entries ih =>
      intro found
      rw [List.lookup_cons] at found
      split at found
      · rename_i same
        rw [beq_iff_eq.mp same, ← Option.some.inj found]
        exact List.mem_cons_self ..
      · exact List.mem_cons_of_mem _ (ih found)
  exact search coreWindows found

theorem mem_extensionNamespaces :
    ns ∈ extensionNamespaces store ↔
    (ns ∈ skipThrough (liveTypes store) ((liveTypes store).length + 1) "" ∨ ns ∈ store.contents.rows.map ContentRow.space) ∧
      ns ∉ coreNamespaces := by
  rw [extensionNamespaces, List.mem_filter, List.mem_insertionSort, List.mem_dedup, List.mem_append]
  simp only [decide_eq_true_eq]

theorem skipThrough_plain {fuel : Nat} (found : ns ∈ skipThrough live fuel after) : '.' ∉ ns.toList := by
  induction fuel generalizing after with
  | zero => cases found
  | succ fuel ih =>
    rw [skipThrough] at found
    split at found
    · cases found
    · rcases List.mem_cons.mp found with rfl | later
      · exact namespaceOf_no_dot _
      · exact ih later

/-- An entry is its namespace's window. -/
theorem windowOf_entry (sound : Sound store) {entry : String × RetentionWindow} (member : entry ∈ windows store project) :
    windowOf store.declared project entry.1 = some entry.2 ∧ '.' ∉ entry.1.toList := by
  rcases List.mem_append.mp member with core | extension
  · obtain ⟨listed, known, rfl⟩ := List.mem_map.mp core
    obtain ⟨-, plain, found⟩ := core_listed listed known
    refine ⟨?_, plain⟩
    simp only [windowOf, found]
  · obtain ⟨ns, known, rfl⟩ := List.mem_map.mp extension
    obtain ⟨source, other⟩ := mem_extensionNamespaces.mp known
    constructor
    · have none_ : coreWindows.lookup ns = none := by
        cases found : coreWindows.lookup ns with
        | none => rfl
        | some core => exact absurd (core_listed _ (mem_core_of_lookup found)).1 other
      simp only [windowOf, none_, if_neg other]
    · rcases source with logged | stored
      · exact skipThrough_plain logged
      · obtain ⟨row, inside, rfl⟩ := List.mem_map.mp stored
        exact sound.plain row inside

/-- A namespace that is logged or stored has its window among those of the sweep. -/
theorem mem_windows {window : RetentionWindow} (found : windowOf store.declared project ns = some window)
    (known : ns ∈ skipThrough (liveTypes store) ((liveTypes store).length + 1) "" ∨ ns ∈ store.contents.rows.map ContentRow.space) :
    (ns, window) ∈ windows store project := by
  rw [windowOf] at found
  split at found
  · rename_i core listed
    rw [← Option.some.inj found]
    exact List.mem_append_left _ (List.mem_map.mpr ⟨(ns, core), mem_core_of_lookup listed, rfl⟩)
  · split at found
    · cases found
    · rename_i other
      rw [← Option.some.inj found]
      exact List.mem_append_right _ (List.mem_map.mpr ⟨ns, mem_extensionNamespaces.mpr ⟨known, other⟩, rfl⟩)

variable {event : LogRow ρ}

theorem named_found (sound : Sound store) (member : event ∈ store.events.rows) (live : event.payloadExpiredAt.isNone = true) :
    namespaceOf event.type ∈ skipThrough (liveTypes store) ((liveTypes store).length + 1) "" := by
  have named : ∀ type ∈ liveTypes store, Named type := by
    intro type inside
    obtain ⟨event, kept, rfl⟩ := List.mem_map.mp inside
    exact sound.named event (List.mem_filter.mp kept).1
  have inside : event.type ∈ liveTypes store := List.mem_map.mpr ⟨event, List.mem_filter.mpr ⟨member, live⟩, rfl⟩
  apply skipThrough_complete named inside
  · rw [String.lt_iff_toList_lt]
    have dotted := (sound.named event member).1
    cases text : event.type.toList with
    | nil =>
      rw [text] at dotted
      cases dotted
    | cons c rest => exact List.nil_lt_cons c rest
  · exact Nat.lt_succ_of_le (List.length_filter_le _ _)

/-! ## What is due -/

/-- The event's payload is there and past its namespace's window. -/
def dueEvent (declared : Table String (Int × Int)) (project : Table String RetentionWindow) (now : Int) (event : LogRow ρ) : Bool :=
  event.payloadExpiredAt.isNone &&
    (windowOf declared project (namespaceOf event.type)).any fun window => decide (event.at_ < before now window.payloadDays)

/-- The body is past its namespace's window. -/
def dueContent (declared : Table String (Int × Int)) (project : Table String RetentionWindow) (now : Int) (row : ContentRow) : Bool :=
  (windowOf declared project row.space).any fun window => decide (row.createdAt < before now window.contentDays)

theorem staleEvent_iff {cutoff : Int} (plain : '.' ∉ ns.toList) (dotted : '.' ∈ event.type.toList) :
    staleEvent cutoff ns event = true ↔ event.payloadExpiredAt.isNone = true ∧ namespaceOf event.type = ns ∧ event.at_ < cutoff := by
  simp only [staleEvent, Bool.and_eq_true, decide_eq_true_eq, and_assoc]
  rw [← range_iff plain dotted, and_assoc]

theorem stale_iff_due (sound : Sound store) (now : Int) (member : event ∈ store.events.rows) :
    ((windows store project).any fun entry => staleEvent (before now entry.2.payloadDays) entry.1 event) =
      dueEvent store.declared project now event := by
  have dotted := (sound.named event member).1
  apply Bool.eq_iff_iff.mpr
  rw [List.any_eq_true, dueEvent, Bool.and_eq_true, Option.any_eq_true]
  constructor
  · rintro ⟨entry, inside, stale⟩
    obtain ⟨own, plain⟩ := windowOf_entry sound inside
    obtain ⟨live, same, old⟩ := (staleEvent_iff plain dotted).mp stale
    exact ⟨live, entry.2, same ▸ own, decide_eq_true old⟩
  · rintro ⟨live, window, own, old⟩
    refine ⟨_, mem_windows own (.inl (named_found sound member live)), ?_⟩
    exact (staleEvent_iff (namespaceOf_no_dot _) dotted).mpr ⟨live, rfl, of_decide_eq_true old⟩

theorem stale_iff_dueContent (sound : Sound store) (now : Int) {row : ContentRow} (member : row ∈ store.contents.rows) :
    ((windows store project).any fun entry => staleContent (before now entry.2.contentDays) entry.1 row) =
      dueContent store.declared project now row := by
  apply Bool.eq_iff_iff.mpr
  rw [List.any_eq_true, dueContent, Option.any_eq_true]
  constructor
  · rintro ⟨entry, inside, stale⟩
    simp only [staleContent, Bool.and_eq_true, decide_eq_true_eq] at stale
    obtain ⟨same, old⟩ := stale
    exact ⟨entry.2, same ▸ (windowOf_entry sound inside).1, decide_eq_true old⟩
  · rintro ⟨window, own, old⟩
    refine ⟨_, mem_windows own (.inr (List.mem_map.mpr ⟨row, member, rfl⟩)), ?_⟩
    simp only [staleContent, decide_true, Bool.true_and]
    exact old

/-! ## The sweep -/

/-- What every batch loop gets is fuel for all its rows. -/
def Enough (fuel : Nat) (store : RetentionStore ρ) : Prop :=
  store.events.rows.length < fuel ∧ store.contents.rows.length < fuel ∧ store.audits.rows.length < fuel ∧ store.runs.rows.length < fuel

def swept (project : Table String RetentionWindow) (now : Int) (store : RetentionStore ρ) : RetentionStore ρ :=
  let events := store.events.settle (dueEvent store.declared project now) (fun event => some (expirePayload now event)) (expire_keeps now)
  { store with
    events
    contents := store.contents.settle (dueContent store.declared project now) (fun _ => none) Keyed.drop_keeps
    audits := store.audits.settle (staleAudit (before now refusedAuditDays)) (fun _ => none) Keyed.drop_keeps
    runs := store.runs.settle (staleRun (before now extensionRunDays)) (fun _ => none) Keyed.drop_keeps
    letters := store.letters.map (discardExpired events.rows) }

section Sweeping

variable {plans : Plans ρ} {fuel batch : Nat} {now : Int}

theorem expired_not_stale (cutoff : Int) (ns : String) (event event' : LogRow ρ) (made : some (expirePayload now event) = some event') :
    staleEvent cutoff ns event' = false := by
  rw [← Option.some.inj made]
  rfl

variable {α : Type}

theorem drop_settles {due : α → Bool} (a b : α) (made : (fun _ : α => (none : Option α)) a = some b) : due b = false := by
  cases made

/-- The store once these windows were applied. -/
def applied (now : Int) (entries : List (String × RetentionWindow)) (store : RetentionStore ρ) : RetentionStore ρ :=
  { store with
    events := store.events.settle (fun event => entries.any fun entry => staleEvent (before now entry.2.payloadDays) entry.1 event)
      (fun event => some (expirePayload now event)) (expire_keeps now)
    contents := store.contents.settle (fun row => entries.any fun entry => staleContent (before now entry.2.contentDays) entry.1 row)
      (fun _ => none) Keyed.drop_keeps }

theorem filter_lt {rows : List α} (p : α → Bool) (enough : rows.length < fuel) : (rows.filter p).length < fuel :=
  Nat.lt_of_le_of_lt (List.length_filter_le _ _) enough

theorem sweepWindow_applied (plans : Plans ρ) (now : Int) (positive : 0 < batch) (report : SweepReport) (enough : Enough fuel store) (entry : String × RetentionWindow) :
    ∃ report', sweepWindow plans fuel batch now (store, report) entry = some (applied now [entry] store, report') := by
  have contents : sweepContents plans fuel batch now entry.1 entry.2 store.contents = some _ :=
    Keyed.inBatches_settle positive drop_settles store.contents (filter_lt _ enough.2.1)
  have events : sweepEvents plans fuel batch now entry.1 entry.2 store.events = some _ :=
    Keyed.inBatches_settle positive (expired_not_stale _ _) store.events (filter_lt _ enough.1)
  rw [sweepWindow]
  simp only [contents, events, Option.bind_eq_bind, Option.bind_some, Option.pure_def, applied, List.any_cons, List.any_nil, Bool.or_false]
  exact ⟨_, rfl⟩

theorem Enough.applied (enough : Enough fuel store) (entries : List (String × RetentionWindow)) :
    Enough fuel (EventSweeps.applied now entries store) :=
  ⟨Nat.lt_of_le_of_lt (List.length_filterMap_le _ _) enough.1, Nat.lt_of_le_of_lt (List.length_filterMap_le _ _) enough.2.1, enough.2.2⟩

theorem applied_nil : applied now [] store = store := by
  simp only [applied, List.any_nil]
  rw [Keyed.settle_none fun _ _ => rfl, Keyed.settle_none fun _ _ => rfl]

theorem applied_cons (entry : String × RetentionWindow) (entries : List (String × RetentionWindow)) :
    applied now entries (applied now [entry] store) = applied now (entry :: entries) store := by
  have none_ (event event' : LogRow ρ) (made : some (expirePayload now event) = some event') :
      (entries.any fun entry => staleEvent (before now entry.2.payloadDays) entry.1 event') = false := by
    apply List.any_eq_false.mpr
    intro entry _
    rw [expired_not_stale _ _ event event' made]
    exact Bool.false_ne_true
  simp only [applied, Keyed.settle_settle none_, Keyed.settle_settle drop_settles, List.any_cons, List.any_nil, Bool.or_false]

theorem foldlM_applied (plans : Plans ρ) (now : Int) (positive : 0 < batch) (entries : List (String × RetentionWindow)) (store : RetentionStore ρ) (report : SweepReport)
    (enough : Enough fuel store) :
    ∃ report', entries.foldlM (sweepWindow plans fuel batch now) (store, report) = some (applied now entries store, report') := by
  induction entries generalizing store report with
  | nil => exact ⟨report, by rw [applied_nil]; rfl⟩
  | cons entry entries ih =>
    obtain ⟨first, step⟩ := sweepWindow_applied plans now positive report enough entry
    obtain ⟨last, rest⟩ := ih (applied now [entry] store) first (enough.applied [entry])
    refine ⟨last, ?_⟩
    rw [List.foldlM_cons, step, ← applied_cons entry entries]
    exact rest

/-- A sweep ends, and leaves what the windows say. -/
theorem sweepInBatches_swept (plans : Plans ρ) (now : Int) (project : Table String RetentionWindow) (positive : 0 < batch) (sound : Sound store) (enough : Enough fuel store) :
    ∃ report, sweepInBatches plans fuel batch now project store = some (swept project now store, report) := by
  obtain ⟨report, folded⟩ := foldlM_applied plans now positive (windows store project) store
    ⟨0, 0, 0, 0, project.keys.filter fun ns => !(windows store project).any fun entry => entry.1 == ns⟩ enough
  have audits : inBatches batch (Keyed.batch plans.audits batch (staleAudit (before now refusedAuditDays)) (fun _ => none) Keyed.drop_keeps)
      fuel store.audits = some _ := Keyed.inBatches_settle positive drop_settles store.audits (filter_lt _ enough.2.2.1)
  have runs : inBatches batch (Keyed.batch plans.runs batch (staleRun (before now extensionRunDays)) (fun _ => none) Keyed.drop_keeps)
      fuel store.runs = some _ := Keyed.inBatches_settle positive drop_settles store.runs (filter_lt _ enough.2.2.2)
  have events : (applied now (windows store project) store).events =
      store.events.settle (dueEvent store.declared project now) (fun event => some (expirePayload now event)) (expire_keeps now) :=
    Keyed.settle_congr fun event member => stale_iff_due sound now member
  have contents : (applied now (windows store project) store).contents =
      store.contents.settle (dueContent store.declared project now) (fun _ => none) Keyed.drop_keeps :=
    Keyed.settle_congr fun row member => stale_iff_dueContent sound now member
  rw [sweepInBatches]
  simp only [folded, Option.bind_eq_bind, Option.bind_some]
  have sameAudits : (applied now (windows store project) store).audits = store.audits := rfl
  have sameRuns : (applied now (windows store project) store).runs = store.runs := rfl
  simp only [sameAudits, sameRuns, audits, runs, Option.bind_some, Option.pure_def]
  refine ⟨_, congrArg some (Prod.ext ?_ rfl)⟩
  simp only [swept, ← events, ← contents]
  rfl

/-! ## A second sweep -/

theorem swept_sound (sound : Sound store) : Sound (swept project now store) := by
  constructor
  · intro event member
    obtain ⟨old, inside, made⟩ := List.mem_filterMap.mp member
    have same : event.type = old.type := by
      split at made <;> rw [← Option.some.inj made]
      rfl
    rw [same]
    exact sound.named old inside
  · intro row member
    rw [swept, Keyed.settle_filter] at member
    exact sound.plain row (List.mem_filter.mp member).1

theorem Enough.swept (enough : Enough fuel store) : Enough fuel (EventSweeps.swept project now store) :=
  ⟨Nat.lt_of_le_of_lt (List.length_filterMap_le _ _) enough.1, Nat.lt_of_le_of_lt (List.length_filterMap_le _ _) enough.2.1,
    Nat.lt_of_le_of_lt (List.length_filterMap_le _ _) enough.2.2.1, Nat.lt_of_le_of_lt (List.length_filterMap_le _ _) enough.2.2.2⟩

theorem discardExpired_again (events : List (LogRow ρ)) (letter : DeadLetter) :
    discardExpired events (discardExpired events letter) = discardExpired events letter := by
  by_cases gone : letter.state = .pending ∧ (events.any fun event => decide (event.seq = letter.eventSeq) && event.payloadExpiredAt.isSome) = true
  · have once : discardExpired events letter = { letter with state := .discarded } := if_pos gone
    rw [once]
    exact if_neg fun again => nomatch again.1
  · have once : discardExpired events letter = letter := if_neg gone
    rw [once, once]

theorem settle_again {κ : Type} {key : α → κ} {table : Keyed key} {due : α → Bool} {f : α → Option α}
    {keeps : ∀ a b, f a = some b → key b = key a} (settles : ∀ a b, f a = some b → due b = false) :
    (table.settle due f keeps).settle due f keeps = table.settle due f keeps := by
  rw [Keyed.settle_settle settles]
  exact Keyed.settle_congr fun row _ => Bool.or_self _

theorem expired_not_due (declared : Table String (Int × Int)) (event event' : LogRow ρ) (made : some (expirePayload now event) = some event') :
    dueEvent declared project now event' = false := by
  rw [← Option.some.inj made]
  rfl

theorem swept_swept : swept project now (swept project now store) = swept project now store := by
  simp only [swept, settle_again (expired_not_due _), settle_again drop_settles, List.map_map]
  congr 1
  apply List.map_congr_left
  intro letter _
  exact discardExpired_again _ letter

theorem pending_alive {events : List (LogRow ρ)} {letters : List DeadLetter} {letter : DeadLetter}
    (member : letter ∈ letters.map (discardExpired events)) (pending : letter.state = .pending) (inside : event ∈ events)
    (own : event.seq = letter.eventSeq) : event.payloadExpiredAt = none := by
  obtain ⟨old, -, rfl⟩ := List.mem_map.mp member
  by_cases gone : old.state = .pending ∧ (events.any fun event => decide (event.seq = old.eventSeq) && event.payloadExpiredAt.isSome) = true
  · have once : discardExpired events old = { old with state := .discarded } := if_pos gone
    rw [once] at pending
    cases pending
  · have once : discardExpired events old = old := if_neg gone
    rw [once] at pending own
    cases expired : event.payloadExpiredAt with
    | none => rfl
    | some stamp =>
      refine absurd ⟨pending, List.any_eq_true.mpr ⟨event, inside, ?_⟩⟩ gone
      simp [own, expired]

end Sweeping

/-- What a sweep leaves of the events, the bodies and the letters, and that a second at its time changes nothing. -/
theorem sweep_expires (plans : Plans ρ) {fuel batch : Nat} (positive : 1 ≤ batch) (now : Int) (project : Table String RetentionWindow)
    (store : RetentionStore ρ) (sound : Sound store) (enough : Enough fuel store) :
    ∃ after report again, sweepInBatches plans fuel batch now project store = some (after, report) ∧
      after.events.rows = store.events.rows.map (fun event =>
        if event.payloadExpiredAt.isNone = true ∧ (windowOf store.declared project (namespaceOf event.type)).any
            (fun window => decide (event.at_ < before now window.payloadDays)) = true then
          { event with payload := "\x7b\x7d", payloadExpiredAt := some now }
        else event) ∧
      after.contents.rows = store.contents.rows.filter (fun row =>
        !(windowOf store.declared project row.space).any fun window => decide (row.createdAt < before now window.contentDays)) ∧
      (∀ letter ∈ after.letters, letter.state = .pending → ∀ event ∈ after.events.rows, event.seq = letter.eventSeq →
        event.payloadExpiredAt = none) ∧
      sweepInBatches plans fuel batch now project after = some (after, again) := by
  obtain ⟨report, done⟩ := sweepInBatches_swept plans now project positive sound enough
  obtain ⟨again, twice⟩ := sweepInBatches_swept plans now project positive (swept_sound sound) enough.swept
  rw [swept_swept] at twice
  refine ⟨_, report, again, done, ?_, Keyed.settle_filter, ?_, twice⟩
  · rw [swept, Keyed.settle_map]
    apply List.map_congr_left
    intro event _
    simp only [dueEvent, Bool.and_eq_true]
    rfl
  · exact fun letter member pending event inside own => pending_alive member pending inside own

def asStored : Plans Unit := ⟨.asStored _, .asStored _, .asStored _, .asStored _⟩

/-- An old event of a namespace that is kept whole, and a body whose namespace is the start of its type. -/
def dottedStore : RetentionStore Unit where
  events := ⟨[⟨1, "snapshot.x.taken", 0, "[1]", none, ()⟩], List.nodup_singleton _⟩
  contents := ⟨[⟨"1f3a", "snapshot.x", 0⟩], List.nodup_singleton _⟩
  declared := []
  letters := []
  audits := ⟨[], List.nodup_nil⟩
  runs := ⟨[], List.nodup_nil⟩

/-- The same with the body of the agent. -/
def agentStore : RetentionStore Unit :=
  { dottedStore with contents := ⟨[⟨"1f3a", "agent", 0⟩], List.nodup_singleton _⟩ }

theorem agentStore_sound : Sound agentStore := by
  constructor
  · intro event member
    rw [List.mem_singleton.mp member]
    exact ⟨by decide, by decide⟩
  · intro row member
    rw [List.mem_singleton.mp member]
    decide

theorem sweep_expires_agent : ∃ after report again,
    sweepInBatches asStored 2 1 (100 * dayMs) [] agentStore = some (after, report) ∧
      after.events.rows = agentStore.events.rows.map (fun event =>
        if event.payloadExpiredAt.isNone = true ∧ (windowOf agentStore.declared [] (namespaceOf event.type)).any
            (fun window => decide (event.at_ < before (100 * dayMs) window.payloadDays)) = true then
          { event with payload := "\x7b\x7d", payloadExpiredAt := some (100 * dayMs) }
        else event) ∧
      after.contents.rows = agentStore.contents.rows.filter (fun row =>
        !(windowOf agentStore.declared [] row.space).any fun window => decide (row.createdAt < before (100 * dayMs) window.contentDays)) ∧
      (∀ letter ∈ after.letters, letter.state = .pending → ∀ event ∈ after.events.rows, event.seq = letter.eventSeq →
        event.payloadExpiredAt = none) ∧
      sweepInBatches asStored 2 1 (100 * dayMs) [] after = some (after, again) :=
  sweep_expires asStored (by decide) (100 * dayMs) [] agentStore agentStore_sound ⟨by decide, by decide, by decide, by decide⟩

/-- A body's namespace that has a dot takes payloads with it whose own namespace has no window. -/
theorem sweep_expires_more : ¬ ∀ (plans : Plans Unit) (fuel batch : Nat) (now : Int) (project : Table String RetentionWindow)
    (store after : RetentionStore Unit) (report : SweepReport), 1 ≤ batch → (∀ event ∈ store.events.rows, Named event.type) →
    sweepInBatches plans fuel batch now project store = some (after, report) →
    ∀ event ∈ after.events.rows, event.payloadExpiredAt.isSome = true →
      (∃ event' ∈ store.events.rows, event'.seq = event.seq ∧ event'.payloadExpiredAt.isSome = true) ∨
        (windowOf store.declared project (namespaceOf event.type)).isSome = true := by
  intro only
  have named : ∀ event ∈ dottedStore.events.rows, Named event.type := by
    intro event member
    rw [List.mem_singleton.mp member]
    exact ⟨by decide, by decide⟩
  have done : (sweepInBatches asStored 2 1 (100 * dayMs) [] dottedStore).map
      (fun result => result.1.events.rows.map fun event => (event.type, event.payloadExpiredAt)) =
        some [("snapshot.x.taken", some (100 * dayMs))] := by
    decide +kernel
  obtain ⟨⟨after, report⟩, swept, rows⟩ := Option.map_eq_some_iff.mp done
  obtain ⟨event, rest, here, shape, -⟩ := List.map_eq_cons_iff.mp rows
  obtain ⟨type, expired⟩ := Prod.mk.inj shape
  have inside : event ∈ after.events.rows := by
    rw [here]
    exact List.mem_cons_self
  rcases only _ _ _ _ _ _ after report (by decide) named swept event inside (by rw [expired]; rfl) with old | window
  · obtain ⟨event, member, -, expired⟩ := old
    rw [List.mem_singleton.mp member] at expired
    cases expired
  · rw [type] at window
    exact absurd window (by decide)

end Oxplow.Proofs.EventSweeps
