import Mathlib.Data.List.TakeWhile
import Oxplow.Git.TopLevel

/-! What the items of a file hold of it: they stand from left to right, each is its part of the
source, and no node with content is left out. -/

namespace Oxplow.Proofs.TopLevel
open Ast Library.Spans
open Harnesses (isWhitespace trim)

variable {src : String}

/-! ## Slices -/

theorem charsIn_subset {inner outer : Nat × Nat} (inside : Inside inner outer) (place : Nat) (text : List Char) :
    charsIn inner.1 inner.2 place text ⊆ charsIn outer.1 outer.2 place text := by
  induction text generalizing place with
  | nil => exact List.Subset.refl _
  | cons c rest ih =>
    have later := ih (place + c.utf8Size)
    by_cases here : inner.1 ≤ place ∧ place < inner.2
    · have there : outer.1 ≤ place ∧ place < outer.2 := ⟨inside.1.trans here.1, Nat.lt_of_lt_of_le here.2 inside.2⟩
      rw [charsIn, if_pos here, charsIn, if_pos there]
      exact List.cons_subset_cons c later
    · rw [charsIn, if_neg here, charsIn]
      split
      · exact List.subset_cons_of_subset c later
      · exact later

/-- A blank text is whitespace from end to end. -/
theorem blank_iff {text : String} : blank text = true ↔ ∀ c ∈ text.toList, isWhitespace c = true := by
  rw [blank, beq_iff_eq, trim, List.reverse_eq_nil_iff, List.dropWhile_eq_nil_iff]
  constructor
  · intro rest
    have none_ : text.toList.dropWhile isWhitespace = [] := by
      by_contra some_
      have first := List.head_dropWhile_not isWhitespace some_
      rw [rest _ (List.mem_reverse.mpr (List.head_mem some_))] at first
      cases first
    exact List.dropWhile_eq_nil_iff.mp none_
  · intro all c member
    exact all c ((List.dropWhile_sublist _).subset (List.mem_reverse.mp member))

theorem blank_inside {inner outer : Nat × Nat} (inside : Inside inner outer) (empty : blank (slice src outer) = true) :
    blank (slice src inner) = true := by
  rw [blank_iff] at empty ⊢
  rw [slice, String.toList_ofList] at empty ⊢
  exact fun c member => empty c (charsIn_subset inside 0 _ member)

variable {start : Nat}

/-! ## Items -/

/-- Items from left to right, each with its part of the source. -/
structure Cut (src : String) (items : List Item) : Prop where
  ascending : Ascending (items.map Item.byteSpan)
  text : ∀ item ∈ items, item.text = slice src item.byteSpan

theorem cut_nil : Cut src [] := ⟨ascending_nil, fun _ member => absurd member List.not_mem_nil⟩

theorem Cut.concat {items : List Item} (cut : Cut src items) {key : String} {span : Nat × Nat} (proper : span.1 ≤ span.2)
    (after : ∀ item ∈ items, item.byteSpan.2 ≤ span.1) : Cut src (items ++ [⟨key, slice src span, span⟩]) where
  ascending := by
    rw [List.map_append]
    exact cut.ascending.concat proper (List.forall_mem_map.mpr after)
  text := List.forall_mem_append.mpr ⟨cut.text, List.forall_mem_singleton.mpr rfl⟩

/-- A node that may be left out of the items: an extra one with nothing but whitespace. -/
def Spare (src : String) (node : Node) : Prop := node.isExtra = true ∧ blank (slice src node.span) = true

def Held (items : List Item) (node : Node) : Prop := ∃ item ∈ items, Inside node.span item.byteSpan

theorem Held.append {items : List Item} {node : Node} (held : Held items node) (more : List Item) : Held (items ++ more) node := by
  obtain ⟨item, member, inside⟩ := held
  exact ⟨item, List.mem_append_left more member, inside⟩

theorem held_concat {items : List Item} {node : Node} {item : Item} (inside : Inside node.span item.byteSpan) : Held (items ++ [item]) node :=
  ⟨item, List.mem_append_right _ (List.mem_singleton_self item), inside⟩

/-- A run of comments that stands after the items. -/
structure Waits (items : List Item) (run : Nat × Nat) : Prop where
  proper : run.1 ≤ run.2
  after : ∀ item ∈ items, item.byteSpan.2 ≤ run.1

section Pushes
variable {items : List Item} {run : Nat × Nat}

theorem push_cut (cut : Cut src items) (waits : Waits items run) : Cut src (pushCommentItem items src run) := by
  rw [pushCommentItem]
  split
  · exact cut
  · exact cut.concat waits.proper waits.after

theorem push_ends (waits : Waits items run) : ∀ item ∈ pushCommentItem items src run, item.byteSpan.2 ≤ run.2 := by
  have before : ∀ item ∈ items, item.byteSpan.2 ≤ run.2 := fun item member => (waits.after item member).trans waits.proper
  rw [pushCommentItem]
  split
  · exact before
  · exact List.forall_mem_append.mpr ⟨before, List.forall_mem_singleton.mpr (Nat.le_refl _)⟩

theorem push_held {node : Node} (held : Held items node) : Held (pushCommentItem items src run) node := by
  rw [pushCommentItem]
  split
  · exact held
  · exact held.append _

/-- An extra node of the run is in its item, or has nothing to lose. -/
theorem push_run {node : Node} (extra : node.isExtra = true) (inside : Inside node.span run) :
    Held (pushCommentItem items src run) node ∨ Spare src node := by
  rw [pushCommentItem]
  split
  · rename_i empty
    exact .inr ⟨extra, blank_inside inside empty⟩
  · exact .inl (held_concat inside)

end Pushes

/-! ## The children, one after the other -/

/-- What `takeChild` keeps of the children that are done. -/
structure Reduced (src : String) (done : List Node) (r : Reduction) : Prop where
  cut : Cut src r.1
  run : ∀ run, r.2 = some run → Waits r.1 run
  ends : ∀ bound, (∀ node ∈ done, node.endByte ≤ bound) → (∀ item ∈ r.1, item.byteSpan.2 ≤ bound) ∧ ∀ run, r.2 = some run → run.2 ≤ bound
  kept : ∀ node ∈ done, Held r.1 node ∨ Spare src node ∨ node.isExtra = true ∧ ∃ run, r.2 = some run ∧ Inside node.span run

/-- Where a declaration that starts at `start` has its item start. -/
structure Absorbed (src : String) (done : List Node) (start : Nat) (items : List Item) (first : Nat) : Prop where
  cut : Cut src items
  early : first ≤ start
  after : ∀ item ∈ items, item.byteSpan.2 ≤ first
  kept : ∀ node ∈ done, Held items node ∨ Spare src node ∨ first ≤ node.startByte ∧ node.endByte ≤ start

theorem absorbRun_detached {items : List Item} {run : Nat × Nat} (gap : detaches (slice src (run.2, start)) = true) :
    absorbRun src (items, some run) start = (pushCommentItem items src run, start) := if_pos gap

theorem absorbRun_attached {items : List Item} {run : Nat × Nat} (gap : ¬ detaches (slice src (run.2, start)) = true) :
    absorbRun src (items, some run) start = (items, run.1) := if_neg gap

theorem absorbRun_absorbed {done : List Node} {r : Reduction} (reduced : Reduced src done r)
    (later : ∀ node ∈ done, node.endByte ≤ start) :
    Absorbed src done start (absorbRun src r start).1 (absorbRun src r start).2 := by
  obtain ⟨items, waiting⟩ := r
  obtain ⟨before, runEnds⟩ := reduced.ends start later
  cases waiting with
  | none =>
    refine ⟨reduced.cut, Nat.le_refl _, before, fun node member => ?_⟩
    rcases reduced.kept node member with held | spare | ⟨-, run, none_, -⟩
    · exact .inl held
    · exact .inr (.inl spare)
    · cases none_
  | some run =>
    have waits : Waits items run := reduced.run run rfl
    have stop : run.2 ≤ start := runEnds run rfl
    by_cases gap : detaches (slice src (run.2, start)) = true
    · have cut : Cut src (pushCommentItem items src run) := push_cut reduced.cut waits
      have ends : ∀ item ∈ pushCommentItem items src run, item.byteSpan.2 ≤ start := fun item member => (push_ends waits item member).trans stop
      rw [absorbRun_detached gap]
      dsimp only
      refine ⟨cut, Nat.le_refl start, ends, ?_⟩
      intro node member
      rcases reduced.kept node member with held | spare | ⟨extra, _, same, inside⟩
      · exact .inl (push_held held)
      · exact .inr (.inl spare)
      · obtain rfl := Option.some.inj same
        exact (push_run extra inside).imp_right .inl
    · rw [absorbRun_attached gap]
      refine ⟨reduced.cut, waits.proper.trans stop, waits.after, fun node member => ?_⟩
      rcases reduced.kept node member with held | spare | ⟨-, _, same, inside⟩
      · exact .inl held
      · exact .inr (.inl spare)
      · obtain rfl := Option.some.inj same
        exact .inr (.inr ⟨inside.1, inside.2.trans stop⟩)

theorem reduced_start : Reduced src [] ([], none) :=
  ⟨cut_nil, (fun _ some_ => nomatch some_), fun _ _ => ⟨fun _ member => absurd member List.not_mem_nil, (fun _ some_ => nomatch some_)⟩,
    fun _ member => absurd member List.not_mem_nil⟩

theorem takeChild_reduced {spec : MergeSpec} {done : List Node} {r : Reduction} {child : Node} (reduced : Reduced src done r)
    (later : ∀ node ∈ done, node.endByte ≤ child.startByte) (proper : child.startByte ≤ child.endByte) :
    Reduced src (done ++ [child]) (takeChild src spec r child) := by
  obtain ⟨before, runEnds⟩ := reduced.ends child.startByte later
  have last : ∀ {bound}, (∀ node ∈ done ++ [child], node.endByte ≤ bound) → child.endByte ≤ bound :=
    fun all => all child (List.mem_append_right done (List.mem_singleton_self child))
  rw [takeChild]
  cases extra : child.isExtra with
  | true =>
    -- The run is opened here, or goes on to here.
    have opened : Waits r.1 ((r.2.map Prod.fst).getD child.startByte, child.endByte) := by
      cases waiting : r.2 with
      | none => exact ⟨proper, before⟩
      | some run =>
        have waits := reduced.run run waiting
        exact ⟨(waits.proper.trans (runEnds run waiting)).trans proper, waits.after⟩
    refine ⟨reduced.cut, fun run same => ?_, fun bound all => ⟨fun item member => ?_, fun run same => ?_⟩, fun node member => ?_⟩
    · obtain rfl := Option.some.inj same
      exact opened
    · exact ((before item member).trans proper).trans (last all)
    · obtain rfl := Option.some.inj same
      exact last all
    · rcases List.mem_append.mp member with old | new
      · rcases reduced.kept node old with held | spare | ⟨extra, run, waiting, inside⟩
        · exact .inl held
        · exact .inr (.inl spare)
        · refine .inr (.inr ⟨extra, _, rfl, ?_⟩)
          rw [waiting]
          exact ⟨inside.1, inside.2.trans ((runEnds run waiting).trans proper)⟩
      · rw [List.mem_singleton.mp new]
        refine .inr (.inr ⟨extra, _, rfl, ?_, Nat.le_refl _⟩)
        cases waiting : r.2 with
        | none => exact Nat.le_refl _
        | some run => exact (reduced.run run waiting).proper.trans (runEnds run waiting)
  | false =>
    have absorbed := absorbRun_absorbed reduced later
    refine ⟨absorbed.cut.concat (absorbed.early.trans proper) absorbed.after, (fun _ none_ => nomatch none_),
      fun bound all => ⟨?_, (fun _ none_ => nomatch none_)⟩, fun node member => ?_⟩
    · refine List.forall_mem_append.mpr ⟨fun item member => ?_, List.forall_mem_singleton.mpr (last all)⟩
      exact ((absorbed.after item member).trans (absorbed.early.trans proper)).trans (last all)
    · rcases List.mem_append.mp member with old | new
      · rcases absorbed.kept node old with held | spare | ⟨start, stop⟩
        · exact .inl (held.append _)
        · exact .inr (.inl spare)
        · exact .inl (held_concat ⟨start, stop.trans proper⟩)
      · rw [List.mem_singleton.mp new]
        exact .inl (held_concat ⟨absorbed.early, Nat.le_refl _⟩)

theorem children_reduced {spec : MergeSpec} (children : List Node) (ascending : Ascending (children.map Node.span)) :
    Reduced src children (children.foldl (takeChild src spec) ([], none)) := by
  induction children using List.reverseRecOn with
  | nil => exact reduced_start
  | append_singleton done child ih =>
    rw [List.map_append, List.map_singleton] at ascending
    rw [List.foldl_concat]
    have earlier : Ascending (done.map Node.span) :=
      ⟨fun span member => ascending.proper span (List.mem_append_left _ member), (List.pairwise_append.mp ascending.apart).1⟩
    refine takeChild_reduced (ih earlier) (fun node member => ?_) ?_
    · exact ascending.prior node.span (List.mem_map_of_mem member)
    · exact ascending.proper child.span (List.mem_append_right _ (List.mem_singleton_self _))

/-- Every item is cut from the source, and what is in none is whitespace between the declarations. -/
theorem topLevelItems_kept (spec : MergeSpec) {children : List Node} (ascending : Ascending (children.map Node.span)) :
    Cut src (topLevelItems src spec children) ∧ ∀ node ∈ children, Held (topLevelItems src spec children) node ∨ Spare src node := by
  have reduced : Reduced src children (children.foldl (takeChild src spec) ([], none)) := children_reduced children ascending
  rw [topLevelItems]
  generalize children.foldl (takeChild src spec) ([], none) = r at reduced ⊢
  unfold flush
  split
  · rename_i waiting
    refine ⟨reduced.cut, fun node member => ?_⟩
    rcases reduced.kept node member with held | spare | ⟨-, run, some_, -⟩
    · exact .inl held
    · exact .inr spare
    · rw [waiting] at some_
      cases some_
  · rename_i run waiting
    refine ⟨push_cut reduced.cut (reduced.run run waiting), fun node member => ?_⟩
    rcases reduced.kept node member with held | spare | ⟨extra, run', some_, inside⟩
    · exact .inl (push_held held)
    · exact .inr spare
    · rw [waiting] at some_
      obtain rfl := Option.some.inj some_
      exact push_run extra inside

theorem charsIn_empty {stop : Nat} (none_ : stop ≤ start) (place : Nat) (text : List Char) :
    charsIn start stop place text = [] := by
  induction text generalizing place with
  | nil => rfl
  | cons c rest ih =>
    rw [charsIn, if_neg (by omega)]
    exact ih _

/-- What has a character has a byte. -/
theorem span_of_not_blank {span : Nat × Nat} (content : blank (slice src span) = false) : span.1 < span.2 := by
  by_contra none_
  have empty : blank (slice src span) = true := by
    rw [blank_iff, slice, String.toList_ofList, charsIn_empty (Nat.le_of_not_lt none_)]
    exact fun _ member => absurd member List.not_mem_nil
  rw [content] at empty
  cases empty

/-! ## A file's items -/

section Files
variable {grammar : Language → String → Option Tree} {lang : Language} {spec : MergeSpec} {tree : Tree}

end Files

/-- A header, a declaration and a trailing comment, with blank lines between them. -/
def headed : Tree where
  children := [⟨none, "line_comment", 0, 9, true, []⟩, ⟨none, "use_declaration", 11, 24, false, []⟩, ⟨none, "line_comment", 26, 37, true, []⟩]
  hasError := false

/-- A clause and the terminator that the end of the file stands for. -/
def unended : Tree where
  children := [⟨none, "package_clause", 0, 12, false, []⟩, ⟨none, "\x00", 12, 12, false, []⟩]
  hasError := false

end Oxplow.Proofs.TopLevel
