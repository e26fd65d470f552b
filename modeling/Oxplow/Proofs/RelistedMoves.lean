import Oxplow.Changes.RefMoves

/-! Every move of a working tree is looked at: what it named stays in the map until a relist
takes it, and until then a message for its stream is on its way to the listener. -/

namespace Oxplow.Proofs.RelistedMoves
open Library Changes

/-! ## What answers a move -/

/-- A listing of the stream that looks at all the move named, or a sweep that passes the stream by. -/
def Answers (stream : Nat) (what : WorkingMove) : Note → Prop
  | .moved _ _ => False
  | .listed listed looked => listed = stream ∧ looked.Covers what
  | .swept streams => stream ∉ streams

/-- The move is in the map, and nothing after it answers it. -/
def Unanswered (notes : List Note) (stream : Nat) (what : WorkingMove) : Prop :=
  ∃ before after, notes = before ++ .moved stream what :: after ∧ ∀ note ∈ after, ¬ Answers stream what note

theorem not_unanswered_nil {stream : Nat} {what : WorkingMove} : ¬ Unanswered [] stream what := by
  rintro ⟨before, after, split, _⟩
  cases before <;> cases split

theorem unanswered_snoc {notes : List Note} {note : Note} {stream : Nat} {what : WorkingMove}
    (unanswered : Unanswered (notes ++ [note]) stream what) :
    Unanswered notes stream what ∧ ¬ Answers stream what note ∨ note = .moved stream what := by
  obtain ⟨before, after, split, none⟩ := unanswered
  rcases List.eq_nil_or_concat after with rfl | ⟨earlier, last, rfl⟩
  · exact .inr (List.cons.inj (List.append_inj' split rfl).2).1
  · have split : notes ++ [note] = (before ++ .moved stream what :: earlier) ++ [last] := by simpa using split
    obtain ⟨rfl, same⟩ := List.append_inj' split rfl
    obtain rfl := (List.cons.inj same).1
    exact .inl ⟨⟨before, earlier, rfl, fun other member => none other (by simp [member])⟩, none note (by simp)⟩

/-! ## What a move waits for -/

/-- What the stream's next relist is to look at covers what the move named. -/
def Held (s : Moves) (stream : Nat) (what : WorkingMove) : Prop :=
  ∃ entry, s.working.get stream = some entry ∧ entry.Covers what

/-- The listener has heard of the stream, or that it fell behind, and is still to take the stream's entry. -/
def Heard (stream : Nat) : Following → Prop
  | .waits | .lists _ => False
  | .drainsRefs heard | .drainsIndex heard => .missed ∈ heard ∨ .stream stream ∈ heard
  | .asksStreams => True
  | .sweeps rest | .sweepLists _ rest | .relists rest | .relistLists _ _ rest => stream ∈ rest

/-- A message for the stream is still to be sent, to be received, or to be worked through. -/
def Wakes (s : Moves) (stream : Nat) : Prop :=
  (∃ channel, (channel, stream) ∈ s.unsent) ∨ s.refs.Hears stream ∨ s.index.Hears stream ∨ Heard stream s.phase

/-- The listener is about to look at all the move named. -/
def InHand (stream : Nat) (what : WorkingMove) : Following → Prop
  | .sweepLists listed _ => listed = stream
  | .relistLists listed looked _ => listed = stream ∧ looked.Covers what
  | _ => False

def Followed (s : Moves) (stream : Nat) (what : WorkingMove) : Prop :=
  Held s stream what ∧ Wakes s stream ∨ InHand stream what s.phase

/-- Every move that is not answered is followed. -/
def Sound (s : Moves) (notes : List Note) : Prop :=
  ∀ stream what, Unanswered notes stream what → Followed s stream what

variable {s next : Moves}

/-- A step without a note that leaves the map alone and passes every message on. -/
theorem followed_of_passed {stream : Nat} {what : WorkingMove} (followed : Followed s stream what)
    (working : next.working = s.working) (wakes : Wakes s stream → Wakes next stream)
    (inHand : InHand stream what s.phase → InHand stream what next.phase) : Followed next stream what := by
  rcases followed with ⟨held, woken⟩ | hand
  · unfold Followed Held
    rw [working]
    exact .inl ⟨held, wakes woken⟩
  · exact .inr (inHand hand)

/-! ## The movers -/

theorem full_covers (what : WorkingMove) : WorkingMove.full.Covers what := by
  cases what <;> trivial

theorem extended_covers (entry : Option WorkingMove) (paths : Finset String) :
    (Moves.extended entry paths).Covers (.paths paths) := by
  unfold Moves.extended
  cases entry.getD (.paths ∅) with
  | full => exact full_covers _
  | paths held =>
    dsimp only
    split
    · exact full_covers _
    · exact fun path member => Finset.mem_union_right _ member

theorem covers_extended {entry what : WorkingMove} (covers : entry.Covers what) (paths : Finset String) :
    (Moves.extended (some entry) paths).Covers what := by
  unfold Moves.extended
  cases entry with
  | full => exact full_covers _
  | paths held =>
    dsimp only [Option.getD_some]
    split
    · exact full_covers _
    · cases what with
      | full => cases covers
      | paths named => exact fun path member => Finset.mem_union_left _ (covers path member)

variable {channel : Channel}

/-- A move puts into the map what covers it and all that was there, and is to send its message. -/
theorem moved_sound {notes : List Note} (sound : Sound s notes) {stream : Nat} {what entry : WorkingMove}
    (covers : entry.Covers what) (grows : ∀ old named, s.working.get stream = some old → old.Covers named → entry.Covers named) :
    Sound { s with working := s.working.insert stream entry, unsent := s.unsent ++ [(channel, stream)] }
      (notes ++ [.moved stream what]) := by
  intro other named unanswered
  rcases unanswered_snoc unanswered with ⟨before, _⟩ | same
  · rcases sound other named before with ⟨⟨old, found, held⟩, wakes⟩ | hand
    · refine .inl ⟨?_, wakes.imp_left fun ⟨at_, waits⟩ => ⟨at_, List.mem_append_left _ waits⟩⟩
      by_cases here : other = stream
      · subst here
        exact ⟨entry, by simp [Table.get_insert], grows old named found held⟩
      · exact ⟨old, by simp [Table.get_insert, here, found], held⟩
    · exact .inr hand
  · cases same
    exact .inl ⟨⟨entry, by simp [Table.get_insert], covers⟩, .inl ⟨channel, by simp⟩⟩

/-- What is taken out at one place was there, or stays. -/
theorem mem_eraseIdx_or {α : Type} {items : List α} {i : Nat} {taken a : α} (at_ : items[i]? = some taken) (member : a ∈ items) :
    a = taken ∨ a ∈ items.eraseIdx i := by
  obtain ⟨inside, same⟩ := List.getElem?_eq_some_iff.mp at_
  have perm := List.getElem_cons_eraseIdx_perm inside
  rw [same] at perm
  exact List.mem_cons.mp (perm.mem_iff.mpr member)

theorem send_wakes {i : Nat} {sent : Nat} (at_ : s.unsent[i]? = some (channel, sent)) {stream : Nat} (wakes : Wakes s stream) :
    Wakes { s.send channel sent with unsent := s.unsent.eraseIdx i } stream := by
  rcases wakes with ⟨other, waits⟩ | refs | index | heard
  · rcases mem_eraseIdx_or at_ waits with same | later
    · obtain ⟨rfl, rfl⟩ := Prod.mk.inj same
      cases other with
      | refs => exact .inr (.inl (Receiver.hears_sent _ _ _))
      | index => exact .inr (.inr (.inl (Receiver.hears_sent _ _ _)))
    · exact .inl ⟨other, later⟩
  · cases channel with
    | refs => exact .inr (.inl (refs.send _ _))
    | index => exact .inr (.inl refs)
  · cases channel with
    | refs => exact .inr (.inr (.inl index))
    | index => exact .inr (.inr (.inl (index.send _ _)))
  · exact .inr (.inr (.inr (by cases channel <;> exact heard)))

/-! ## The listener -/

theorem heard_received {received : Received Nat} {stream : Nat} (got : received = .lagged ∨ received = .message stream) :
    Moved.ofReceived received = .missed ∨ Moved.ofReceived received = .stream stream := by
  rcases got with rfl | rfl
  · exact .inl rfl
  · exact .inr rfl

variable {heard : List Moved}

theorem mem_heardStreams {stream : Nat} : stream ∈ Moves.heardStreams heard ↔ .stream stream ∈ heard := by
  unfold Moves.heardStreams
  rw [List.mem_dedup, List.mem_insertionSort, List.mem_filterMap]
  constructor
  · rintro ⟨moved, member, found⟩
    cases moved with
    | stream => exact Option.some.inj found ▸ member
    | missed => cases found
  · intro member
    exact ⟨_, member, rfl⟩

theorem get_without {ρ : Type} (table : Table Nat ρ) (stream other : Nat) :
    (Moves.without table stream).get other = if other = stream then none else table.get other := by
  unfold Moves.without
  rw [Table.get_delete]
  simp

/-- A message received is heard. -/
theorem receive_wakes {got : Received Nat} {receiver : Receiver Nat}
    (received : (s.receiver channel).receive = some (got, receiver)) {phase : Following} {stream : Nat}
    (heard : (.ofReceived got = Moved.missed ∨ .ofReceived got = Moved.stream stream) → Heard stream phase)
    (kept : Heard stream s.phase → Heard stream phase) (wakes : Wakes s stream) :
    Wakes { s.withReceiver receiver channel with phase } stream := by
  have passed : (s.receiver channel).Hears stream → receiver.Hears stream ∨ Heard stream phase := by
    intro hears
    rcases hears.receive received with lagged | message | later
    · exact .inr (heard (heard_received (.inl lagged)))
    · exact .inr (heard (heard_received (.inr message)))
    · exact .inl later
  rcases wakes with waits | refs | index | before
  · exact .inl (by cases channel <;> exact waits)
  · cases channel with
    | refs => exact .inr ((passed refs).imp_right .inr)
    | index => exact .inr (.inl refs)
  · cases channel with
    | refs => exact .inr (.inr (.inl index))
    | index => exact .inr (.inr (passed index))
  · exact .inr (.inr (.inr (kept before)))

theorem heard_snoc {moved : Moved} {stream : Nat}
    (known : (.missed ∈ heard ∨ .stream stream ∈ heard) ∨ moved = .missed ∨ moved = .stream stream) :
    .missed ∈ heard ++ [moved] ∨ .stream stream ∈ heard ++ [moved] := by
  rcases known with (missed | member) | rfl | rfl
  · exact .inl (List.mem_append_left _ missed)
  · exact .inr (List.mem_append_left _ member)
  · exact .inl (by simp)
  · exact .inr (by simp)

/-- What was heard is worked through. -/
theorem heard_heardAll {stream : Nat} (known : .missed ∈ heard ∨ .stream stream ∈ heard) :
    Heard stream (Moves.heardAll heard) := by
  unfold Moves.heardAll
  split
  next => trivial
  next unmissed =>
    rcases known with missed | member
    · exact absurd (List.contains_iff_mem.mpr missed) unmissed
    · exact mem_heardStreams.mpr member

/-- A change of phase that forgets nothing heard. -/
theorem phase_wakes {phase : Following} {stream : Nat} (kept : Heard stream s.phase → Heard stream phase) :
    Wakes s stream → Wakes { s with phase } stream :=
  fun wakes => wakes.imp_right fun later => later.imp_right fun later => later.imp_right kept

/-- The listener takes a stream's entry to look at it. -/
theorem take_followed {taken : Nat} {rest : List Nat} {phase : Following} {unreconciled : Table Nat Nat} {stream : Nat}
    {what : WorkingMove} (heard : Heard stream s.phase → stream ∈ taken :: rest) (rests : stream ∈ rest → Heard stream phase)
    (hands : Held s taken what → InHand taken what phase) (idle : ¬ InHand stream what s.phase)
    (followed : Followed s stream what) :
    Followed { s with working := Moves.without s.working taken, unreconciled, phase } stream what := by
  rcases followed with ⟨held, wakes⟩ | hand
  · by_cases same : stream = taken
    · subst same
      exact .inr (hands held)
    · refine .inl ⟨?_, ?_⟩
      · obtain ⟨entry, found, covers⟩ := held
        exact ⟨entry, (get_without _ _ _).trans ((if_neg same).trans found), covers⟩
      · refine wakes.imp_right fun later => later.imp_right fun later => later.imp_right fun before => rests ?_
        exact (List.mem_cons.mp (heard before)).resolve_left same
  · exact absurd hand idle

/-- A listing of what was in hand answers what it looks at. -/
theorem listed_sound {notes : List Note} (sound : Sound s notes) {listed : Nat} {looked : WorkingMove} {phase : Following}
    {unreconciled : Table Nat Nat} (heard : ∀ stream, Heard stream s.phase → Heard stream phase)
    (hand : ∀ stream what, InHand stream what s.phase → listed = stream ∧ looked.Covers what) :
    Sound { s with unreconciled, phase } (notes ++ [.listed listed looked]) := by
  intro stream what unanswered
  rcases unanswered_snoc unanswered with ⟨before, unlooked⟩ | same
  · rcases sound stream what before with ⟨held, wakes⟩ | inHand
    · exact .inl ⟨held, phase_wakes (heard stream) wakes⟩
    · exact absurd (hand stream what inHand) unlooked
  · cases same

theorem silent_sound {notes : List Note} (sound : Sound s notes)
    (followed : ∀ stream what, Followed s stream what → Followed next stream what) :
    Sound next (notes ++ (none : Option Note).toList) := by
  intro stream what unanswered
  rw [Option.toList_none, List.append_nil] at unanswered
  exact followed stream what (sound stream what unanswered)

/-! ## Runs -/

section Runs
variable {reconcileAfter : Nat}

variable {note : Option Note}

theorem recv_sound {notes : List Note} (sound : Sound s notes) (steps : s.step reconcileAfter (.recv channel) = some (next, note)) :
    Sound next (notes ++ note.toList) := by
  simp only [Moves.step] at steps
  split at steps
  next got receiver phase received =>
    cases steps
    apply silent_sound sound
    intro stream what followed
    rcases followed with ⟨held, wakes⟩ | hand
    · refine .inl ⟨by cases channel <;> exact held, ?_⟩
      refine receive_wakes received (fun known => known.imp ?_ ?_) (fun before => ?_) wakes
      · exact fun same => by simp [same]
      · exact fun same => by simp [same]
      · rw [phase] at before
        cases before
    · rw [phase] at hand
      cases hand
  next => cases steps

theorem drain_sound {notes : List Note} (sound : Sound s notes) (steps : s.step reconcileAfter .drain = some (next, note)) :
    Sound next (notes ++ note.toList) := by
  simp only [Moves.step] at steps
  split at steps
  next heard phase =>
    split at steps
    next got refs received =>
      cases steps
      apply silent_sound sound
      intro stream what followed
      refine followed_of_passed followed rfl (@receive_wakes s .refs _ _ received _ _ (fun known => heard_snoc (.inr known)) ?_) ?_
      · rw [phase]
        exact fun known => heard_snoc (.inl known)
      · rw [phase]
        exact id
    next empty =>
      cases steps
      apply silent_sound sound
      intro stream what followed
      refine followed_of_passed followed rfl (phase_wakes ?_) ?_
      · rw [phase]
        exact id
      · rw [phase]
        exact id
  next heard phase =>
    split at steps
    next got index received =>
      cases steps
      apply silent_sound sound
      intro stream what followed
      refine followed_of_passed followed rfl (@receive_wakes s .index _ _ received _ _ (fun known => heard_snoc (.inr known)) ?_) ?_
      · rw [phase]
        exact fun known => heard_snoc (.inl known)
      · rw [phase]
        exact id
    next empty =>
      cases steps
      apply silent_sound sound
      intro stream what followed
      refine followed_of_passed followed rfl (phase_wakes ?_) ?_
      · rw [phase]
        exact heard_heardAll
      · rw [phase]
        exact False.elim
  next => cases steps

theorem take_sound {notes : List Note} (sound : Sound s notes) (steps : s.step reconcileAfter .take = some (next, note)) :
    Sound next (notes ++ note.toList) := by
  simp only [Moves.step] at steps
  split at steps
  next taken rest phase =>
    cases steps
    apply silent_sound sound
    intro stream what followed
    refine @take_followed s taken rest _ _ stream what ?_ id (fun _ => rfl) ?_ followed
    · rw [phase]
      exact id
    · rw [phase]
      exact id
  next taken rest phase =>
    cases steps
    apply silent_sound sound
    intro stream what followed
    refine @take_followed s taken rest _ _ stream what ?_ id (fun held => ⟨rfl, ?_⟩) ?_ followed
    · rw [phase]
      exact id
    · obtain ⟨entry, found, covers⟩ := held
      rw [found]
      exact covers
    · rw [phase]
      exact id
  next => cases steps

theorem list_sound {notes : List Note} (sound : Sound s notes) {now : Nat}
    (steps : s.step reconcileAfter (.list now) = some (next, note)) : Sound next (notes ++ note.toList) := by
  simp only [Moves.step] at steps
  split at steps
  next listed rest phase =>
    cases steps
    refine listed_sound sound (fun stream => ?_) fun stream what => ?_
    · rw [phase]
      exact False.elim
    · rw [phase]
      exact False.elim
  next listed rest phase =>
    cases steps
    refine @listed_sound s notes sound listed .full _ s.unreconciled (fun stream => ?_) fun stream what => ?_
    · rw [phase]
      exact id
    · rw [phase]
      exact fun same => ⟨same, full_covers what⟩
  next listed rest phase =>
    cases steps
    refine listed_sound sound (fun stream => ?_) fun stream what => ?_
    · rw [phase]
      exact id
    · rw [phase]
      exact id
  next listed paths rest phase =>
    cases steps
    refine listed_sound sound (fun stream => ?_) fun stream what => ?_
    · rw [phase]
      exact id
    · rw [phase]
      exact id
  next => cases steps

/-- A sweep takes the streams it was given, and passes the others by. -/
theorem streams_sound {notes : List Note} (sound : Sound s notes) {rows : Option (List StreamRow)}
    (steps : s.step reconcileAfter (.streams rows) = some (next, note)) : Sound next (notes ++ note.toList) := by
  simp only [Moves.step] at steps
  split at steps
  next phase =>
    cases steps
    intro stream what unanswered
    rcases unanswered_snoc unanswered with ⟨before, swept⟩ | same
    · have followed := sound stream what before
      refine followed_of_passed followed rfl (phase_wakes fun _ => not_not.mp swept) ?_
      rw [phase]
      exact False.elim
    · cases same
  next => cases steps

theorem due_sound {notes : List Note} (sound : Sound s notes) {now : Nat} {ready : List Nat}
    (steps : s.step reconcileAfter (.due now ready) = some (next, note)) : Sound next (notes ++ note.toList) := by
  simp only [Moves.step] at steps
  split at steps
  next phase =>
    split at steps
    next =>
      cases steps
      apply silent_sound sound
      intro stream what followed
      refine followed_of_passed followed rfl (phase_wakes ?_) ?_
      · rw [phase]
        exact id
      · rw [phase]
        exact id
    next => cases steps
  next => cases steps

theorem turn_sound {notes : List Note} (sound : Sound s notes) (steps : s.step reconcileAfter .turn = some (next, note)) :
    Sound next (notes ++ note.toList) := by
  obtain ⟨phase, rfl, rfl⟩ := Moves.step_turn steps
  apply silent_sound sound
  intro stream what followed
  refine followed_of_passed followed rfl (phase_wakes fun heard => ?_) fun hand => ?_
  · rcases phase with phase | phase | phase <;> rw [phase] at heard <;> cases heard
  · rcases phase with phase | phase | phase <;> rw [phase] at hand <;> cases hand

theorem step_sound {notes : List Note} (sound : Sound s notes) {event : MoveStep}
    (steps : s.step reconcileAfter event = some (next, note)) : Sound next (notes ++ note.toList) := by
  cases event with
  | pathsMoved stream paths =>
    cases steps
    refine moved_sound sound (extended_covers _ _) fun old named found covers => ?_
    rw [found]
    exact covers_extended covers _
  | indexMoved stream =>
    cases steps
    exact moved_sound sound (full_covers _) fun _ _ _ _ => full_covers _
  | moved stream =>
    cases steps
    exact moved_sound sound (full_covers _) fun _ _ _ _ => full_covers _
  | send i =>
    obtain ⟨⟨channel, sent⟩, at_, steps⟩ := Option.bind_eq_some_iff.mp steps
    cases steps
    apply silent_sound sound
    intro stream what followed
    exact followed_of_passed followed (by cases channel <;> rfl) (send_wakes at_) (by cases channel <;> exact id)
  | recv channel => exact recv_sound sound steps
  | due now ready => exact due_sound sound steps
  | drain => exact drain_sound sound steps
  | streams rows => exact streams_sound sound steps
  | take => exact take_sound sound steps
  | list now => exact list_sound sound steps
  | turn => exact turn_sound sound steps

/-- What a run has shown. -/
def notesOf (accepted : List (MoveStep × Option Note)) : List Note := accepted.filterMap (·.2)

theorem run_sound (streams : List Nat) (events : List MoveStep) :
    Sound (Machine.run (Moves.step reconcileAfter) (.start streams) events)
      (notesOf (Machine.accepted (Moves.step reconcileAfter) (.start streams) events)) := by
  have keeps : ∀ s log event next note, Sound s (notesOf log) → s.step reconcileAfter event = some (next, note) →
      Sound next (notesOf (log ++ [(event, note)])) := by
    intro s log event next note sound steps
    have kept := step_sound sound steps
    unfold notesOf at kept ⊢
    rw [List.filterMap_append]
    cases note <;> exact kept
  have start : Sound (.start streams) (notesOf []) := fun stream what unanswered => absurd unanswered not_unanswered_nil
  simpa using Machine.run_invariant (fun s log => Sound s (notesOf log)) keeps [] start events

/-- Every send has happened, and the listener waits with nothing to receive. -/
structure Idle (s : Moves) : Prop where
  sent : s.unsent = []
  refs : s.refs.receive = none
  index : s.index.receive = none
  waits : s.phase = .waits

/-- Once the listener has worked through every message, each move was followed by a listing of its
stream that looks at all the move named, or by a sweep after a lag that its stream was not in. -/
theorem moves_relisted (streams : List Nat) (events : List MoveStep) :
    Idle (Machine.run (Moves.step reconcileAfter) (.start streams) events) →
      ∀ before stream what after,
        notesOf (Machine.accepted (Moves.step reconcileAfter) (.start streams) events) = before ++ .moved stream what :: after →
          (∃ looked, .listed stream looked ∈ after ∧ looked.Covers what) ∨
            ∃ swept, .swept swept ∈ after ∧ stream ∉ swept := by
  intro idle before stream what after split
  by_contra missed
  have unanswered : Unanswered (notesOf (Machine.accepted (Moves.step reconcileAfter) (.start streams) events)) stream what := by
    refine ⟨before, after, split, fun note member answers => missed ?_⟩
    cases note with
    | moved => cases answers
    | listed listed looked =>
      obtain ⟨rfl, covers⟩ := answers
      exact .inl ⟨looked, member, covers⟩
    | swept swept => exact .inr ⟨swept, member, answers⟩
  rcases run_sound streams events stream what unanswered with ⟨_, wakes⟩ | hand
  · rcases wakes with ⟨channel, waits⟩ | refs | index | heard
    · rw [idle.sent] at waits
      cases waits
    · exact Receiver.not_hears_of_none idle.refs refs
    · exact Receiver.not_hears_of_none idle.index index
    · rw [idle.waits] at heard
      cases heard
  · rw [idle.waits] at hand
    cases hand

end Runs

/-- A path moves, and is listed. -/
def pathRun : List MoveStep :=
  [.turn, .pathsMoved 1 ["a"], .send 0, .recv .index, .drain, .drain, .take, .list 5, .turn]

theorem moves_relisted_path :
    (∃ looked, .listed 1 looked ∈ [Note.listed 1 (.paths {"a"})] ∧ looked.Covers (.paths {"a"})) ∨
      ∃ swept, .swept swept ∈ [Note.listed 1 (.paths {"a"})] ∧ 1 ∉ swept :=
  @moves_relisted 60 [] pathRun ⟨by decide, by decide, by decide, by decide⟩ [] 1 (.paths {"a"}) [.listed 1 (.paths {"a"})]
    (by decide)

/-- An archived stream moves more often than the channel holds. -/
def archivedRun : List MoveStep :=
  [.turn] ++ (List.replicate 257 [MoveStep.moved 2, .send 0]).flatten ++ [.recv .refs] ++ List.replicate 258 .drain ++
    [.streams (some [⟨2, true⟩]), .turn]

set_option maxRecDepth 30000 in
/-- The listener has received every message and waits, and has listed nothing. -/
theorem archived_move_passed_by :
    let s := Machine.run (Moves.step 60) (.start []) archivedRun
    let notes := notesOf (Machine.accepted (Moves.step 60) (.start []) archivedRun)
    (s.unsent = [] ∧ s.refs = .empty ∧ s.index = .empty ∧ s.phase = .waits) ∧
      .moved 2 .full ∈ notes ∧ ∀ note ∈ notes, note = .moved 2 .full ∨ note = .swept [] := by
  decide

end Oxplow.Proofs.RelistedMoves
