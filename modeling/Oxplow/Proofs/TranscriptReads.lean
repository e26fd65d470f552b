import Oxplow.Chat.Transcript
import Mathlib.Data.List.Induction

/-! A client that polls a transcript holds what is in the ring, after every run of it. -/

namespace Oxplow.Proofs.TranscriptReads
open Library Chat

variable {t t' : Transcript} {item : TranscriptItem} {out : Option TranscriptItem} {how : Option ItemBody → ItemBody → Prop}

/-! ## What a call can do -/

/-- The ring as it was, an item more of it, or an item changed in its place. -/
inductive Moves (how : Option ItemBody → ItemBody → Prop) (t t' : Transcript) : Option TranscriptItem → Prop
  | still (items : t'.items = t.items) (nextId : t'.nextId = t.nextId) (seq : t'.seq = t.seq) : Moves how t t' none
  | pushed (item : TranscriptItem) (gone : Nat) (id : item.id = t.nextId) (stamped : item.seq = t.seq + 1)
      (items : t'.items = (t.items ++ [item]).drop gone) (nextId : t'.nextId = t.nextId + 1) (seq : t'.seq = t.seq + 1)
      (body : how none item.body) : Moves how t t' (some item)
  | changed (old item : TranscriptItem) (before after : List TranscriptItem) (id : item.id = old.id) (stamped : item.seq = t.seq + 1)
      (was : t.items = before ++ old :: after) (items : t'.items = before ++ item :: after) (nextId : t'.nextId = t.nextId)
      (seq : t'.seq = t.seq + 1) (body : how (some old.body) item.body) : Moves how t t' (some item)

variable {id : Nat} {old : TranscriptItem}

theorem replace_found {items : List TranscriptItem} (found : items.find? (·.id == id) = some old) :
    ∃ before after, items = before ++ old :: after ∧ old.id = id ∧ ∀ item, replace items id item = before ++ item :: after := by
  induction items with
  | nil => cases found
  | cons i items ih =>
    by_cases same : i.id = id
    · rw [List.find?_cons_of_pos (by simp [same])] at found
      cases Option.some.inj found
      exact ⟨[], items, rfl, same, fun item => if_pos same⟩
    · rw [List.find?_cons_of_neg (by simp [same])] at found
      obtain ⟨before, after, rfl, own, replaced⟩ := ih found
      refine ⟨i :: before, after, rfl, own, fun item => ?_⟩
      simp only [replace, if_neg same, replaced item, List.cons_append]

theorem pushed_moves (body : ItemBody) (holds : how none body) : Moves how t (t.pushed body).1 (t.pushed body).2 :=
  .pushed _ _ rfl rfl rfl rfl rfl holds

theorem update_moves (id : Nat) (f : ItemBody → ItemBody) (holds : ∀ {old}, t.items.find? (·.id == id) = some old → how (some old.body) (f old.body)) :
    Moves how t (t.update id f).1 (t.update id f).2 := by
  cases found : t.items.find? (·.id == id) with
  | none =>
    simp only [Transcript.update, found]
    exact .still rfl rfl rfl
  | some old =>
    simp only [Transcript.update, found]
    obtain ⟨before, after, was, own, replaced⟩ := replace_found found
    exact .changed old _ before after rfl rfl was (replaced _) rfl rfl (holds found)

/-- The words that an update brings. -/
def words : ChatUpdate → String
  | .userChunk text | .agentChunk text | .thoughtChunk text => text
  | _ => ""

/-- What an item says after an update is what it said and the update's words. -/
def Joins (chunk : String) (old : Option ItemBody) (new : ItemBody) : Prop :=
  new.said.getD "" = ((old.bind ItemBody.said).getD "") ++ chunk

theorem joins_pushStr {b : ItemBody} {kind : Chunk} (takes : b.takes kind = true) (text : String) : Joins text (some b) (b.pushStr text) := by
  cases b <;> cases kind <;> simp_all [ItemBody.takes, ItemBody.pushStr, ItemBody.said, Joins]

theorem joins_body (kind : Chunk) (text : String) : Joins text none (kind.body text) := by
  cases kind <;> simp [Chunk.body, ItemBody.said, Joins]

theorem joins_silent {old : Option ItemBody} {new : ItemBody} (silent : new.said = none) (before : old.bind ItemBody.said = none) :
    Joins "" old new := by
  simp [Joins, silent, before]

theorem said_patched (b : ItemBody) (p : ToolCallPatch) : (b.patched p).said = b.said := by
  cases b <;> rfl

/-- The item with an id that something says nothing has. -/
theorem silent_found {i : TranscriptItem} (distinct : (t.items.map TranscriptItem.id).Nodup) (member : i ∈ t.items)
    (own : i.id = id) (silent : i.body.said = none) (found : t.items.find? (·.id == id) = some old) :
    (some old.body).bind ItemBody.said = none := by
  have same : old.id = id := by simpa using List.find?_some found
  have is : old = i := List.inj_on_of_nodup_map distinct (List.mem_of_find?_eq_some found) member (same.trans own.symm)
  rw [is]
  exact silent

theorem toolItemId_some {call : String} (found : t.toolItemId call = some id) :
    ∃ i ∈ t.items, i.id = id ∧ i.body.said = none := by
  obtain ⟨i, member, is⟩ := List.exists_of_findSome?_eq_some found
  refine ⟨i, List.mem_reverse.mp member, ?_⟩
  cases body : i.body <;> simp only [body, reduceCtorEq] at is
  split at is
  · exact ⟨Option.some.inj is, rfl⟩
  · cases is

theorem currentPlanId_some (found : t.currentPlanId = some id) : ∃ i ∈ t.items, i.id = id ∧ i.body.said = none := by
  obtain ⟨i, member, is⟩ := List.exists_of_findSome?_eq_some found
  refine ⟨i, List.mem_reverse.mp ((List.takeWhile_sublist _).subset member), ?_⟩
  cases body : i.body <;> simp only [body, reduceCtorEq] at is
  exact ⟨Option.some.inj is, rfl⟩

theorem chunk_moves (text : String) (kind : Chunk) (distinct : (t.items.map TranscriptItem.id).Nodup) :
    Moves (Joins text) t (t.chunk text kind).1 (t.chunk text kind).2 := by
  simp only [Transcript.chunk]
  split
  · rename_i last found
    obtain ⟨there, takes⟩ := Option.filter_eq_some_iff.mp found
    have moves : Moves (Joins text) t (t.update last.id (·.pushStr text)).1 (t.update last.id (·.pushStr text)).2 := by
      apply update_moves
      intro old inside
      have own : old.id = last.id := by simpa using List.find?_some inside
      have same : old = last := List.inj_on_of_nodup_map distinct (List.mem_of_find?_eq_some inside) (List.mem_of_getLast? there) own
      rw [same]
      exact joins_pushStr takes text
    split
    · rename_i next item is
      rw [is] at moves
      exact moves
    · rename_i next is
      have absent : t.items.find? (·.id == last.id) = none := by
        cases inside : t.items.find? (·.id == last.id) with
        | none => rfl
        | some old =>
          simp only [Transcript.update, inside] at is
          cases is
      exact absurd (List.find?_eq_none.mp absent last (List.mem_of_getLast? there)) (by simp)
  · exact pushed_moves _ (joins_body kind text)

theorem apply_moves (u : ChatUpdate) (distinct : (t.items.map TranscriptItem.id).Nodup) :
    Moves (Joins (words u)) t (t.apply u).1 (t.apply u).2 := by
  cases u with
  | userChunk text => exact chunk_moves text .user distinct
  | agentChunk text => exact chunk_moves text .agent distinct
  | thoughtChunk text => exact chunk_moves text .thought distinct
  | toolCall call =>
    simp only [Transcript.apply]
    split
    · rename_i id found
      obtain ⟨i, member, own, silent⟩ := toolItemId_some found
      exact update_moves _ _ fun inside => joins_silent rfl (silent_found distinct member own silent inside)
    · exact pushed_moves _ (joins_silent rfl rfl)
  | toolCallUpdate p =>
    simp only [Transcript.apply]
    split
    · rename_i id found
      obtain ⟨i, member, own, silent⟩ := toolItemId_some found
      apply update_moves
      intro old inside
      have before := silent_found distinct member own silent inside
      exact joins_silent ((said_patched old.body p).trans before) before
    · exact pushed_moves _ (joins_silent rfl rfl)
  | plan entries =>
    simp only [Transcript.apply]
    split
    · rename_i id found
      obtain ⟨i, member, own, silent⟩ := currentPlanId_some found
      exact update_moves _ _ fun inside => joins_silent rfl (silent_found distinct member own silent inside)
    · exact pushed_moves _ (joins_silent rfl rfl)
  | usage u => exact .still rfl rfl rfl
  | ignored => exact .still rfl rfl rfl

/-! ## What the calls came to -/

/-- The calls of a run, each with the item it created or changed. -/
abbrev Log := List (Event × Option TranscriptItem)

def changes (log : Log) : List TranscriptItem := log.filterMap (·.2)

/-- An item as it last was. -/
def lastChange (log : Log) (id : Nat) : Option TranscriptItem := (changes log).reverse.find? (·.id == id)

/-- What an item said before a call, and what the call leaves it saying: the words it streams
follow, and a call that sets the item says what it sets. -/
def hear (id : Nat) (text : String) (call : Event × Option TranscriptItem) : String :=
  match call with
  | (_, none) => text
  | (.apply u, some item) => if item.id = id then text ++ words u else text
  | (_, some item) => if item.id = id then item.body.said.getD "" else text

def heard (log : Log) (id : Nat) : String := log.foldl (hear id) ""

variable {log : Log} {event : Event} {id : Nat}

theorem changes_still : changes (log ++ [(event, none)]) = changes log := by
  simp [changes]

theorem changes_item : changes (log ++ [(event, some item)]) = changes log ++ [item] := by
  simp [changes]

theorem lastChange_item : lastChange (log ++ [(event, some item)]) id = if item.id = id then some item else lastChange log id := by
  rw [lastChange, changes_item, List.reverse_append, List.reverse_singleton, List.singleton_append, List.find?_cons, lastChange]
  by_cases same : item.id = id
  · simp [same]
  · have differ : (item.id == id) = false := by simpa using same
    rw [differ, if_neg same]

theorem heard_snoc (call : Event × Option TranscriptItem) : heard (log ++ [call]) id = hear id (heard log id) call := by
  simp [heard, List.foldl_append]

theorem hear_other {text : String} (other : item.id ≠ id) : hear id text (event, some item) = text := by
  cases event <;> simp [hear, other]

theorem heard_unknown (unknown : ∀ past ∈ changes log, past.id ≠ id) : heard log id = "" := by
  induction log using List.reverseRecOn with
  | nil => rfl
  | append_singleton log call ih =>
    obtain ⟨event, out⟩ := call
    rw [heard_snoc]
    cases out with
    | none =>
      rw [changes_still] at unknown
      exact ih unknown
    | some item =>
      rw [changes_item] at unknown
      rw [hear_other (unknown item (by simp))]
      exact ih fun past member => unknown past (List.mem_append_left _ member)

/-! ## Every call -/

structure Kept (s : Session) (log : Log) : Prop where
  ids : (s.transcript.items.map TranscriptItem.id).Nodup
  known : ∀ item ∈ changes log, item.id < s.transcript.nextId
  seqs : (s.transcript.items.map TranscriptItem.seq).Nodup
  stamped : ∀ item ∈ s.transcript.items, item.seq ≤ s.transcript.seq
  last : ∀ item ∈ s.transcript.items, lastChange log item.id = some item
  said : ∀ item ∈ s.transcript.items, heard log item.id = item.body.said.getD ""
  seen : s.client.seen ≤ s.transcript.seq
  fresh : Polling.UpToDate TranscriptItem.id TranscriptItem.seq s.client s.transcript.items

variable {s : Session}

/-- What is in the ring is among what the calls came to. -/
theorem Kept.changed_of_mem (kept : Kept s log) (member : item ∈ s.transcript.items) : item ∈ changes log :=
  List.mem_reverse.mp (List.mem_of_find?_eq_some (kept.last item member))

theorem Kept.still (kept : Kept s log) (items : t'.items = s.transcript.items) (nextId : t'.nextId = s.transcript.nextId)
    (seq : t'.seq = s.transcript.seq) : Kept { s with transcript := t' } (log ++ [(event, none)]) := by
  have same : ∀ id, lastChange (log ++ [(event, none)]) id = lastChange log id := fun id => by rw [lastChange, changes_still, lastChange]
  have hears : ∀ id, heard (log ++ [(event, none)]) id = heard log id := fun id => by rw [heard_snoc]; cases event <;> rfl
  constructor
  · exact items ▸ kept.ids
  · rw [changes_still, nextId]
    exact kept.known
  · exact items ▸ kept.seqs
  · rw [items, seq]
    exact kept.stamped
  · intro item member
    rw [items] at member
    rw [same]
    exact kept.last item member
  · intro item member
    rw [items] at member
    rw [hears]
    exact kept.said item member
  · rw [seq]
    exact kept.seen
  · exact items ▸ kept.fresh

/-- The words a call streams, as they join what the item said. -/
def Hears (event : Event) (old : Option ItemBody) (item : TranscriptItem) : Prop :=
  hear item.id ((old.bind ItemBody.said).getD "") (event, some item) = item.body.said.getD ""

theorem Kept.pushed (kept : Kept s log) (gone : Nat) (id : item.id = s.transcript.nextId) (stamped : item.seq = s.transcript.seq + 1)
    (items : t'.items = (s.transcript.items ++ [item]).drop gone) (nextId : t'.nextId = s.transcript.nextId + 1)
    (seq : t'.seq = s.transcript.seq + 1) (hears : Hears event none item) :
    Kept { s with transcript := t' } (log ++ [(event, some item)]) := by
  have older : ∀ past ∈ changes log, past.id ≠ item.id := fun past member => by
    have below := kept.known past member
    omega
  have fresh : ∀ old ∈ s.transcript.items, old.id ≠ item.id := fun old member => older old (kept.changed_of_mem member)
  have inside : ∀ {i}, i ∈ t'.items → i ∈ s.transcript.items ∨ i = item := by
    intro i member
    rw [items] at member
    simpa using List.mem_of_mem_drop member
  constructor
  · have grown : ((s.transcript.items ++ [item]).map TranscriptItem.id).Nodup := by
      rw [List.map_append, List.nodup_append]
      refine ⟨kept.ids, List.nodup_singleton _, ?_⟩
      intro a there b here same
      obtain ⟨old, member, rfl⟩ := List.mem_map.mp there
      rw [List.map_singleton, List.mem_singleton] at here
      exact fresh old member (same.trans here)
    change (t'.items.map _).Nodup
    rw [items]
    exact grown.sublist ((List.drop_sublist _ _).map _)
  · intro past member
    change past.id < t'.nextId
    rw [changes_item, List.mem_append, List.mem_singleton] at member
    rcases member with before | rfl
    · have below := kept.known past before
      omega
    · omega
  · have grown : ((s.transcript.items ++ [item]).map TranscriptItem.seq).Nodup := by
      rw [List.map_append, List.nodup_append]
      refine ⟨kept.seqs, List.nodup_singleton _, ?_⟩
      intro a there b here same
      obtain ⟨old, member, rfl⟩ := List.mem_map.mp there
      rw [List.map_singleton, List.mem_singleton] at here
      have below := kept.stamped old member
      omega
    change (t'.items.map _).Nodup
    rw [items]
    exact grown.sublist ((List.drop_sublist _ _).map _)
  · intro i member
    change i.seq ≤ t'.seq
    rcases inside member with before | rfl
    · have below := kept.stamped i before
      omega
    · omega
  · intro i member
    rw [lastChange_item]
    rcases inside member with before | rfl
    · rw [if_neg (fresh i before).symm]
      exact kept.last i before
    · exact if_pos rfl
  · intro i member
    rw [heard_snoc]
    rcases inside member with before | rfl
    · rw [hear_other (fresh i before).symm]
      exact kept.said i before
    · rw [heard_unknown older]
      exact hears
  · change s.client.seen ≤ t'.seq
    have seen := kept.seen
    omega
  · apply kept.fresh.change
    intro i member
    have seen := kept.seen
    rcases inside member with before | rfl
    · exact .inl before
    · right
      omega

theorem Kept.changed (kept : Kept s log) {before after : List TranscriptItem} (id : item.id = old.id)
    (stamped : item.seq = s.transcript.seq + 1) (was : s.transcript.items = before ++ old :: after)
    (items : t'.items = before ++ item :: after) (nextId : t'.nextId = s.transcript.nextId) (seq : t'.seq = s.transcript.seq + 1)
    (hears : Hears event (some old.body) item) : Kept { s with transcript := t' } (log ++ [(event, some item)]) := by
  have there : old ∈ s.transcript.items := by simp [was]
  have apart : (before ++ old :: after).map TranscriptItem.id = (before ++ item :: after).map TranscriptItem.id := by simp [id]
  have distinct : ((before ++ item :: after).map TranscriptItem.id).Nodup := by
    rw [← apart, ← was]
    exact kept.ids
  have inside : ∀ {i}, i ∈ t'.items → i ∈ s.transcript.items ∧ i.id ≠ item.id ∨ i = item := by
    intro i member
    rw [items] at member
    by_cases own : i = item
    · exact .inr own
    · refine .inl ⟨?_, fun same => own (List.inj_on_of_nodup_map distinct member (by simp) same)⟩
      rw [was]
      rcases List.mem_append.mp member with early | late
      · exact List.mem_append_left _ early
      · rcases List.mem_cons.mp late with same | late
        · exact absurd same own
        · exact List.mem_append_right _ (List.mem_cons_of_mem _ late)
  constructor
  · change (t'.items.map _).Nodup
    rw [items]
    exact distinct
  · intro past member
    change past.id < t'.nextId
    rw [changes_item, List.mem_append, List.mem_singleton] at member
    rw [nextId]
    rcases member with earlier | rfl
    · exact kept.known past earlier
    · rw [id]
      exact kept.known old (kept.changed_of_mem there)
  · change (t'.items.map _).Nodup
    have seqs := kept.seqs
    have bound := kept.stamped
    rw [was] at seqs bound
    rw [items, List.map_append, List.map_cons, List.nodup_middle]
    rw [List.map_append, List.map_cons, List.nodup_middle] at seqs
    refine List.nodup_cons.mpr ⟨fun member => ?_, (List.nodup_cons.mp seqs).2⟩
    rw [← List.map_append] at member
    obtain ⟨other, inside, same⟩ := List.mem_map.mp member
    have below := bound other (by
      rcases List.mem_append.mp inside with early | late
      · exact List.mem_append_left _ early
      · exact List.mem_append_right _ (List.mem_cons_of_mem _ late))
    omega
  · intro i member
    change i.seq ≤ t'.seq
    rcases inside member with ⟨before, _⟩ | rfl
    · have below := kept.stamped i before
      omega
    · omega
  · intro i member
    rw [lastChange_item]
    rcases inside member with ⟨before, other⟩ | rfl
    · rw [if_neg other.symm]
      exact kept.last i before
    · exact if_pos rfl
  · intro i member
    rw [heard_snoc]
    rcases inside member with ⟨before, other⟩ | rfl
    · rw [hear_other other.symm]
      exact kept.said i before
    · have prior : heard log i.id = old.body.said.getD "" := id ▸ kept.said old there
      rw [prior]
      exact hears
  · change s.client.seen ≤ t'.seq
    have seen := kept.seen
    omega
  · apply kept.fresh.change
    intro i member
    have seen := kept.seen
    rcases inside member with ⟨before, _⟩ | rfl
    · exact .inl before
    · right
      omega

theorem Kept.moves (kept : Kept s log) (moves : Moves how s.transcript t' out)
    (hears : ∀ {old item}, how old item.body → Hears event old item) : Kept { s with transcript := t' } (log ++ [(event, out)]) := by
  cases moves with
  | still items nextId seq => exact kept.still items nextId seq
  | pushed item gone id stamped items nextId seq body => exact kept.pushed gone id stamped items nextId seq (hears body)
  | changed old item before after id stamped was items nextId seq body => exact kept.changed id stamped was items nextId seq (hears body)

theorem hears_apply {u : ChatUpdate} {old : Option ItemBody} (joins : Joins (words u) old item.body) : Hears (.apply u) old item := by
  simp only [Hears, hear, if_true]
  exact joins.symm

theorem kept_start (cap : Nat) : Kept (.start cap) [] := by
  constructor <;> simp [Session.start, Transcript.new, changes, Polling.Reader.empty, Polling.UpToDate]

theorem Kept.read (kept : Kept s log) :
    Kept { s with client := s.client.poll TranscriptItem.id TranscriptItem.seq s.transcript.items } (log ++ [(event, none)]) := by
  have still : Kept { s with transcript := s.transcript } (log ++ [(event, none)]) := kept.still rfl rfl rfl
  refine ⟨still.ids, still.known, still.seqs, still.stamped, still.last, still.said, ?_, ?_⟩
  · exact Polling.seen_poll kept.seen kept.stamped
  · intro item member _
    exact kept.fresh.poll kept.ids member

theorem kept_step {next : Session} (kept : Kept s log) (moves : s.step event = some (next, out)) : Kept next (log ++ [(event, out)]) := by
  cases event with
  | push body =>
    cases moves
    have goes : Moves (fun _ new => new = body) s.transcript _ _ := pushed_moves body rfl
    exact kept.moves goes fun _ => by simp [Hears, hear]
  | update id f =>
    cases moves
    have goes : Moves (fun _ _ => True) s.transcript _ _ := update_moves id f fun _ => trivial
    exact kept.moves goes fun _ => by simp [Hears, hear]
  | apply u =>
    cases moves
    exact kept.moves (apply_moves u kept.ids) hears_apply
  | read =>
    cases moves
    exact kept.read

theorem kept_run (cap : Nat) (events : List Event) :
    Kept (Machine.run Session.step (.start cap) events) (Machine.accepted Session.step (.start cap) events) := by
  refine Machine.run_invariant Kept ?_ [] (kept_start cap) events
  intro s log event next out kept moves
  exact kept_step kept moves

/-! ## The client -/

/-- What a run of the transcript gives its clients. -/
structure Served (s : Session) (log : Log) : Prop where
  /-- After a read the client holds every item of the ring as it is. -/
  holds : ∀ next out, s.step .read = some (next, out) →
    ∀ item ∈ next.transcript.items, next.client.held item.id = some item
  seqs : (s.transcript.items.map TranscriptItem.seq).Nodup
  last : ∀ item ∈ s.transcript.items, lastChange log item.id = some item
  /-- What comes next changes an item of the ring or has an id of its own. -/
  ids : ∀ event next item, s.step event = some (next, some item) →
    (∃ old ∈ s.transcript.items, old.id = item.id) ∨ ∀ past ∈ changes log, past.id ≠ item.id
  /-- What an item says is what was streamed into it since it was set, whole and in order. -/
  said : ∀ item ∈ s.transcript.items, item.body.said.getD "" = heard log item.id

theorem Kept.new_ids (kept : Kept s log) (moves : Moves how s.transcript t' (some item)) :
    (∃ old ∈ s.transcript.items, old.id = item.id) ∨ ∀ past ∈ changes log, past.id ≠ item.id := by
  cases moves with
  | pushed _ _ id =>
    right
    intro past member
    have below := kept.known past member
    omega
  | changed old _ before after id _ was => exact .inl ⟨old, by simp [was], id.symm⟩

end Oxplow.Proofs.TranscriptReads
