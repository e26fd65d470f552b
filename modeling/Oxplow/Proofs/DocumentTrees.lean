import Mathlib.Data.List.Induction
import Mathlib.Data.List.Nodup
import Mathlib.Logic.Relation
import Std.Data.String.ToNat
import Oxplow.Pages.Results

/-! The rows of a document: one for each value it holds, under an id of its own, and behind the
row of what holds it; two objects, or two arrays, with the same rows are equal. -/

namespace Oxplow.Proofs.DocumentTrees
open Jobs Pages

/-! ## What a value holds -/

/-- The values held directly, each under its key or index. -/
def held : Json → List (String × Json)
  | .object entries => entries
  | .array items => items.zipIdx.map fun item => (toString item.2, item.1)
  | _ => []

variable {holder : Json}

theorem held_smaller {entry : String × Json} (member : entry ∈ held holder) : sizeOf entry.2 < sizeOf holder := by
  cases holder with
  | object entries =>
    have inside : sizeOf entry < sizeOf entries := List.sizeOf_lt_of_mem member
    have part : sizeOf entry.2 < sizeOf entry := by
      obtain ⟨name, value⟩ := entry
      simp only [Prod.mk.sizeOf_spec]
      omega
    simp only [Json.object.sizeOf_spec]
    omega
  | array items =>
    obtain ⟨item, inside, rfl⟩ := List.mem_map.mp member
    have inside := List.sizeOf_lt_of_mem (List.fst_mem_of_mem_zipIdx inside)
    simp only [Json.array.sizeOf_spec]
    omega
  | _ => cases member

/-- What holds of a value when it holds of all it holds, holds of every value. -/
theorem held_induction {P : Json → Prop} (step : ∀ holder, (∀ entry ∈ held holder, P entry.2) → P holder) (value : Json) :
    P value := by
  have sized : ∀ n value, sizeOf value = n → P value := by
    intro n
    induction n using Nat.strongRecOn with
    | ind n ih =>
      rintro value rfl
      exact step value fun entry member => ih _ (held_smaller member) entry.2 rfl
  exact sized _ value rfl

/-- The rows of an entry and of all under it. -/
def block (at_ : String) (entry : String × Json) : List TreeRow :=
  row (childId at_ entry.1) (parentAt at_) (some entry.1) entry.2 :: children (childId at_ entry.1) entry.2

theorem children_held (at_ : String) (holder : Json) : children at_ holder = (held holder).flatMap (block at_) := by
  have entries : ∀ entries, entryRows at_ entries = entries.flatMap (block at_) := by
    intro entries
    induction entries with
    | nil => rfl
    | cons entry entries ih => rw [entryRows, ih, List.flatMap_cons, block]
  have items : ∀ items i, itemRows at_ i items =
      ((items.zipIdx i).map fun item => (toString item.2, item.1)).flatMap (block at_) := by
    intro items
    induction items with
    | nil => exact fun _ => rfl
    | cons item items ih =>
      intro i
      rw [itemRows, ih, List.zipIdx_cons, List.map_cons, List.flatMap_cons, block]
  cases holder with
  | object => exact entries _
  | array => exact items _ 0
  | _ => rfl

/-! ## Pointers -/

def escape (c : Char) : List Char := if c = '~' then ['~', '0'] else if c = '/' then ['~', '1'] else [c]

theorem pointerToken_escape (key : String) : (pointerToken key).toList = key.toList.flatMap escape := by
  unfold pointerToken replaceChar
  rw [String.toList_ofList, List.flatMap_assoc]
  congr 1
  funext c
  unfold escape
  by_cases tilde : c = '~'
  · subst tilde
    rfl
  · by_cases slash : c = '/'
    · subst slash
      rfl
    · simp [tilde, slash]

theorem escape_cases (c : Char) : c = '~' ∧ escape c = ['~', '0'] ∨ c = '/' ∧ escape c = ['~', '1'] ∨ c ≠ '~' ∧ c ≠ '/' ∧ escape c = [c] := by
  unfold escape
  split
  next tilde => exact .inl ⟨tilde, rfl⟩
  next tilde =>
    split
    next slash => exact .inr (.inl ⟨slash, rfl⟩)
    next slash => exact .inr (.inr ⟨tilde, slash, rfl⟩)

theorem escape_cancel {c c' : Char} {rest rest' : List Char} (same : escape c ++ rest = escape c' ++ rest') :
    c = c' ∧ rest = rest' := by
  rcases escape_cases c with ⟨is, here⟩ | ⟨is, here⟩ | ⟨tilde, _, here⟩ <;>
    rcases escape_cases c' with ⟨is', there⟩ | ⟨is', there⟩ | ⟨tilde', _, there⟩ <;>
    rw [here, there] at same <;> have parts := List.cons.inj same
  · exact ⟨is.trans is'.symm, (List.cons.inj parts.2).2⟩
  · exact absurd (List.cons.inj parts.2).1 (by decide)
  · exact absurd parts.1.symm tilde'
  · exact absurd (List.cons.inj parts.2).1 (by decide)
  · exact ⟨is.trans is'.symm, (List.cons.inj parts.2).2⟩
  · exact absurd parts.1.symm tilde'
  · exact absurd parts.1 tilde
  · exact absurd parts.1 tilde
  · exact parts

theorem escapes_injective {key key' : List Char} (same : key.flatMap escape = key'.flatMap escape) : key = key' := by
  have some_ : ∀ c rest, escape c ++ rest ≠ [] := by
    intro c rest
    rcases escape_cases c with ⟨_, here⟩ | ⟨_, here⟩ | ⟨_, _, here⟩ <;> rw [here] <;> exact List.cons_ne_nil _ _
  induction key generalizing key' with
  | nil =>
    cases key' with
    | nil => rfl
    | cons c key' => exact absurd same.symm (some_ c _)
  | cons c key ih =>
    cases key' with
    | nil => exact absurd same (some_ c _)
    | cons c' key' =>
      obtain ⟨rfl, rest⟩ := escape_cancel same
      rw [ih rest]

theorem slash_absent (key : String) : ∀ c ∈ (pointerToken key).toList, c ≠ '/' := by
  rw [pointerToken_escape]
  intro c member
  obtain ⟨x, _, inside⟩ := List.mem_flatMap.mp member
  rcases escape_cases x with ⟨_, here⟩ | ⟨_, here⟩ | ⟨_, slash, here⟩ <;> rw [here] at inside
  · rcases List.mem_pair.mp inside with rfl | rfl <;> decide
  · rcases List.mem_pair.mp inside with rfl | rfl <;> decide
  · exact List.mem_singleton.mp inside ▸ slash

/-- The id of the value that a path of names leads to. -/
def pointer (path : List String) : String := path.foldl childId ""

theorem pointer_snoc (path : List String) (name : String) : pointer (path ++ [name]) = childId (pointer path) name := by
  simp [pointer]

theorem pointer_toList (path : List String) :
    (pointer path).toList = path.flatMap fun name => '/' :: (pointerToken name).toList := by
  induction path using List.reverseRecOn with
  | nil => rfl
  | append_singleton path name ih => simp [pointer_snoc, childId, ih]

theorem pointer_injective {path path' : List String} (same : pointer path = pointer path') : path = path' := by
  have texts := congrArg String.toList same
  rw [pointer_toList, pointer_toList] at texts
  clear same
  induction path generalizing path' with
  | nil =>
    cases path' with
    | nil => rfl
    | cons => cases texts
  | cons name path ih =>
    cases path' with
    | nil => cases texts
    | cons name' path' =>
      have ends : ∀ path : List String, (path.flatMap fun name => '/' :: (pointerToken name).toList).takeWhile (· != '/') = [] := by
        intro path
        cases path <;> simp
      have cut : ∀ (name : String) (path : List String),
          ((pointerToken name).toList ++ path.flatMap fun name => '/' :: (pointerToken name).toList).takeWhile (· != '/') =
            (pointerToken name).toList := by
        intro name path
        rw [List.takeWhile_append_of_pos fun c member => by simpa using slash_absent name c member, ends, List.append_nil]
      have whole := (List.cons.inj texts).2
      have tokens : (pointerToken name).toList = (pointerToken name').toList := by
        rw [← cut name path, ← cut name' path']
        exact congrArg _ whole
      have names : name = name' := by
        rw [pointerToken_escape, pointerToken_escape] at tokens
        exact String.toList_injective (escapes_injective tokens)
      subst names
      rw [ih (List.append_cancel_left whole)]

/-! ## Places -/

/-- The value a path of keys and indices leads to. -/
inductive At (doc : Json) : List String → Json → Prop
  | here : At doc [] doc
  | inside {path : List String} {holder : Json} {entry : String × Json} (found : At doc path holder)
      (member : entry ∈ held holder) : At doc (path ++ [entry.1]) entry.2

variable {value doc : Json}

theorem At.trans {middle : Json} {path more : List String} (found : At doc path middle) (further : At middle more value) :
    At doc (path ++ more) value := by
  induction further with
  | here => rwa [List.append_nil]
  | inside _ member ih =>
    rw [← List.append_assoc]
    exact ih.inside member

theorem At.last {path : List String} {name : String} (found : At doc (path ++ [name]) value) :
    ∃ holder, At doc path holder ∧ (name, value) ∈ held holder := by
  generalize whole : path ++ [name] = full at found
  cases found with
  | here => simp at whole
  | inside found member =>
    obtain ⟨rfl, rfl⟩ := List.append_singleton_inj.mp whole
    exact ⟨_, found, member⟩

theorem At.split {path more : List String} (found : At doc (path ++ more) value) :
    ∃ middle, At doc path middle ∧ At middle more value := by
  induction more using List.reverseRecOn generalizing value with
  | nil => exact ⟨value, by rwa [List.append_nil] at found, .here⟩
  | append_singleton more name ih =>
    rw [← List.append_assoc] at found
    obtain ⟨holder, found, member⟩ := found.last
    obtain ⟨middle, first, further⟩ := ih found
    exact ⟨middle, first, further.inside member⟩

theorem At.top (found : At doc [] value) : value = doc := by
  generalize whole : ([] : List String) = full at found
  cases found with
  | here => rfl
  | inside => simp at whole

theorem At.first {name : String} {path : List String} (found : At doc (name :: path) value) :
    ∃ middle, (name, middle) ∈ held doc ∧ At middle path value := by
  obtain ⟨middle, first, further⟩ := At.split (show At doc ([name] ++ path) value by exact found)
  obtain ⟨holder, top, member⟩ := At.last (show At doc ([] ++ [name]) middle by exact first)
  exact ⟨middle, top.top ▸ member, further⟩

/-- No object of the value has a key twice, which the parser's maps see to. -/
def Keyed (doc : Json) : Prop := ∀ path entries, At doc path (.object entries) → (entries.map Prod.fst).Nodup

theorem Keyed.within {path : List String} (keyed : Keyed doc) (found : At doc path value) : Keyed value :=
  fun _ _ further => keyed _ _ (found.trans further)

theorem keyed_of_held (own : ∀ entries, doc = .object entries → (entries.map Prod.fst).Nodup)
    (parts : ∀ entry ∈ held doc, Keyed entry.2) : Keyed doc := by
  intro path entries found
  cases path with
  | nil => exact own entries found.top.symm
  | cons name path =>
    obtain ⟨middle, member, further⟩ := found.first
    exact parts _ member path entries further

theorem index_names (items : List Json) : (held (.array items)).map Prod.fst = (List.range items.length).map toString := by
  calc (held (.array items)).map Prod.fst
      _ = (items.zipIdx.map Prod.snd).map toString := by rw [held, List.map_map, List.map_map]; rfl
      _ = (List.range items.length).map toString := by rw [List.zipIdx_map_snd, List.range_eq_range']

theorem held_names (keyed : Keyed holder) : ((held holder).map Prod.fst).Nodup := by
  cases holder with
  | object entries => exact keyed [] entries .here
  | array items =>
    rw [index_names]
    exact List.nodup_range.map fun _ _ same => Nat.repr_injective same
  | _ => exact List.nodup_nil

theorem At.unique {other : Json} {path : List String} (keyed : Keyed doc) (found : At doc path value) (again : At doc path other) :
    value = other := by
  induction path using List.reverseRecOn generalizing value other with
  | nil => rw [found.top, again.top]
  | append_singleton path name ih =>
    obtain ⟨holder, found, member⟩ := found.last
    obtain ⟨holder', again, member'⟩ := again.last
    obtain rfl := ih found again
    have place := List.inj_on_of_nodup_map (held_names (keyed.within found)) member member' rfl
    exact (Prod.mk.inj place).2

/-! ## Rows -/

/-- The row of the value that a path leads to. -/
def rowAt (path : List String) (value : Json) : TreeRow := row (pointer path) (parentAt (pointer path.dropLast)) path.getLast? value

@[simp] theorem row_id (id : String) (parent name : Option String) (value : Json) : (row id parent name value).id = id := by
  cases value <;> rfl

@[simp] theorem row_parent (id : String) (parent name : Option String) (value : Json) :
    (row id parent name value).parent = parent := by
  cases value <;> rfl

theorem row_name (id : String) (parent name : Option String) (value : Json) : (row id parent name value).name = name := by
  cases value <;> rfl

theorem block_rowAt (path : List String) (entry : String × Json) :
    block (pointer path) entry = rowAt (path ++ [entry.1]) entry.2 :: children (pointer (path ++ [entry.1])) entry.2 := by
  simp [block, rowAt, pointer_snoc]

theorem parentAt_pointer {path : List String} (inner : path ≠ []) : parentAt (pointer path) = some (pointer path) := by
  have filled : pointer path ≠ pointer [] := fun same => inner (pointer_injective same)
  unfold parentAt
  rw [if_neg]
  exact fun empty => filled (String.isEmpty_iff.mp empty)

theorem rowAt_parent {path : List String} (inner : path ≠ []) (name : String) (value : Json) :
    (rowAt (path ++ [name]) value).parent = some (pointer path) := by
  rw [rowAt, row_parent, List.dropLast_concat, parentAt_pointer inner]

theorem children_split {more : List String} (found : At holder more value) (inner : more ≠ []) (path : List String) :
    ∃ before after, children (pointer path) holder =
      before ++ rowAt (path ++ more) value :: children (pointer (path ++ more)) value ++ after := by
  have direct : ∀ {holder value : Json} {name : String} (path : List String), (name, value) ∈ held holder →
      ∃ before after, children (pointer path) holder =
        before ++ rowAt (path ++ [name]) value :: children (pointer (path ++ [name])) value ++ after := by
    intro holder value name path member
    obtain ⟨before, after, parts⟩ := List.append_of_mem member
    refine ⟨before.flatMap (block (pointer path)), after.flatMap (block (pointer path)), ?_⟩
    rw [children_held, parts, List.flatMap_append, List.flatMap_cons, block_rowAt, List.append_assoc]
  induction found with
  | here => exact absurd rfl inner
  | @inside more middle entry found member ih =>
    by_cases first : more = []
    · subst first
      exact direct path (found.top ▸ member)
    · obtain ⟨before, after, outer⟩ := ih first
      obtain ⟨before', after', within⟩ := direct (path ++ more) member
      rw [← List.append_assoc]
      refine ⟨before ++ rowAt (path ++ more) middle :: before', after' ++ after, ?_⟩
      rw [outer, within]
      simp only [List.append_assoc, List.cons_append]

theorem mem_children {r : TreeRow} {path : List String} :
    r ∈ children (pointer path) holder ↔ ∃ more value, more ≠ [] ∧ At holder more value ∧ r = rowAt (path ++ more) value := by
  constructor
  · induction holder using held_induction generalizing path with
    | step holder ih =>
      intro member
      rw [children_held] at member
      obtain ⟨entry, direct, member⟩ := List.mem_flatMap.mp member
      have first : At holder [entry.1] entry.2 := At.here.inside direct
      rw [block_rowAt] at member
      rcases List.mem_cons.mp member with rfl | member
      · exact ⟨[entry.1], entry.2, List.cons_ne_nil _ _, first, rfl⟩
      · obtain ⟨more, value, _, further, rfl⟩ := ih entry direct member
        exact ⟨[entry.1] ++ more, value, by simp, first.trans further, by rw [List.append_assoc]⟩
  · rintro ⟨more, value, inner, found, rfl⟩
    obtain ⟨before, after, parts⟩ := children_split found inner path
    rw [parts]
    simp

theorem mem_rows {r : TreeRow} : r ∈ children "" doc ↔ ∃ path value, path ≠ [] ∧ At doc path value ∧ r = rowAt path value :=
  @mem_children doc r []

/-! ## Ids -/

theorem children_ids (keyed : Keyed holder) (path : List String) : ((children (pointer path) holder).map TreeRow.id).Nodup := by
  induction holder using held_induction generalizing path with
  | step holder ih =>
    rw [children_held, List.map_flatMap]
    refine List.nodup_flatMap.mpr ⟨?_, ?_⟩
    · intro entry member
      rw [block_rowAt, List.map_cons]
      refine List.nodup_cons.mpr ⟨?_, ih entry member (keyed.within (At.here.inside member)) _⟩
      intro again
      obtain ⟨r, inside, same⟩ := List.mem_map.mp again
      obtain ⟨more, value, inner, _, rfl⟩ := mem_children.mp inside
      rw [rowAt, rowAt, row_id, row_id] at same
      exact inner (List.append_right_eq_self.mp (pointer_injective same))
    · have names : (held holder).Pairwise fun e e' => e.1 ≠ e'.1 := List.pairwise_map.mp (held_names keyed)
      refine names.imp fun {e e'} differ => ?_
      intro id inside inside'
      have begins : ∀ entry : String × Json, id ∈ (block (pointer path) entry).map TreeRow.id →
          ∃ more, id = pointer (path ++ entry.1 :: more) := by
        intro entry named
        obtain ⟨r, member, same⟩ := List.mem_map.mp named
        rw [← same]
        rw [block_rowAt] at member
        rcases List.mem_cons.mp member with rfl | member
        · exact ⟨[], by rw [rowAt, row_id]⟩
        · obtain ⟨more, value, _, _, rfl⟩ := mem_children.mp member
          exact ⟨more, by rw [rowAt, row_id, List.append_assoc, List.singleton_append]⟩
      obtain ⟨more, here⟩ := begins e inside
      obtain ⟨more', there⟩ := begins e' inside'
      have paths := List.append_cancel_left (pointer_injective (here.symm.trans there))
      exact differ (List.cons.inj paths).1

/-! ## What is under a row -/

/-- Of the rows given, the one is under the other, its child or under one of its children. -/
def Under (rows : List TreeRow) : TreeRow → TreeRow → Prop :=
  Relation.TransGen fun r holder => r ∈ rows ∧ holder ∈ rows ∧ r.parent = some holder.id

theorem child_iff {path : List String} {holder : List String} {held : Json} (outer : holder ≠ []) (inner : path ≠ []) :
    (rowAt path value).parent = some (rowAt holder held).id ↔ ∃ name, path = holder ++ [name] := by
  obtain ⟨front, name, rfl⟩ := List.eq_nil_or_concat' path |>.resolve_left inner
  rw [show (rowAt holder held).id = pointer holder by rw [rowAt, row_id]]
  constructor
  · intro parent
    by_cases top : front = []
    · subst top
      rw [rowAt, row_parent] at parent
      simp [parentAt, pointer] at parent
    · rw [rowAt_parent top] at parent
      exact ⟨name, by rw [pointer_injective (Option.some.inj parent)]⟩
  · rintro ⟨other, same⟩
    obtain ⟨rfl, rfl⟩ := List.append_singleton_inj.mp same
    exact rowAt_parent outer name value

theorem under_iff (keyed : Keyed doc) {path : List String} (found : At doc path value) (inner : path ≠ []) {r : TreeRow} :
    Under (children "" doc) r (rowAt path value) ↔ r ∈ children (pointer path) value := by
  constructor
  · intro under
    suffices deeper : ∃ more value', more ≠ [] ∧ At doc (path ++ more) value' ∧ r = rowAt (path ++ more) value' by
      obtain ⟨more, value', nonempty, further, rfl⟩ := deeper
      obtain ⟨middle, first, further⟩ := further.split
      exact mem_children.mpr ⟨more, value', nonempty, first.unique keyed found ▸ further, rfl⟩
    have step : ∀ {r : TreeRow} {outer : List String} {held : Json}, outer ≠ [] → r ∈ children "" doc →
        r.parent = some (rowAt outer held).id →
          ∃ name value', At doc (outer ++ [name]) value' ∧ r = rowAt (outer ++ [name]) value' := by
      intro r outer held nonempty member parent
      obtain ⟨path', value', some_, at_, rfl⟩ := mem_rows.mp member
      obtain ⟨name, rfl⟩ := (child_iff nonempty some_).mp parent
      exact ⟨name, value', at_, rfl⟩
    induction under using Relation.TransGen.head_induction_on with
    | single child =>
      obtain ⟨name, value', at_, rfl⟩ := step inner child.1 child.2.2
      exact ⟨[name], value', List.cons_ne_nil _ _, at_, rfl⟩
    | head child _ ih =>
      obtain ⟨more, middle, nonempty, _, rfl⟩ := ih
      obtain ⟨name, value', at_, rfl⟩ := step (by simp [inner]) child.1 child.2.2
      rw [List.append_assoc] at at_ ⊢
      exact ⟨more ++ [name], value', by simp, at_, rfl⟩
  · intro member
    obtain ⟨more, value', nonempty, further, rfl⟩ := mem_children.mp member
    have listedAt : ∀ {more value'}, At value more value' → rowAt (path ++ more) value' ∈ children "" doc := by
      intro more value' further
      exact mem_rows.mpr ⟨_, _, by simp [inner], found.trans further, rfl⟩
    clear member
    induction further with
    | here => exact absurd rfl nonempty
    | @inside more middle entry further member ih =>
      have child : rowAt (path ++ (more ++ [entry.1])) entry.2 ∈ children "" doc ∧ rowAt (path ++ more) middle ∈ children "" doc ∧
          (rowAt (path ++ (more ++ [entry.1])) entry.2).parent = some (rowAt (path ++ more) middle).id := by
        refine ⟨listedAt (further.inside member), listedAt further, ?_⟩
        exact (child_iff (by simp [inner]) (by simp)).mpr ⟨entry.1, by rw [List.append_assoc]⟩
      by_cases first : more = []
      · subst first
        rw [further.top, List.append_nil] at child
        exact .single child
      · exact .head child (ih first)

/-! ## From rows back to the document -/

/-- What a row shows of its value. -/
def shown (value : Json) : String × Option String × Option Nat :=
  let r := row "" none none value
  (r.kind, r.value, r.count)

theorem row_shown (id : String) (parent name : Option String) (value : Json) :
    ((row id parent name value).kind, (row id parent name value).value, (row id parent name value).count) = shown value := by
  cases value <;> rfl

theorem row_same {id id' : String} {parent parent' name name' : Option String} {other : Json}
    (same : row id parent name value = row id' parent' name' other) : name = name' ∧ shown value = shown other := by
  constructor
  · have names := congrArg TreeRow.name same
    rwa [row_name, row_name] at names
  · rw [← row_shown id parent name, ← row_shown id' parent' name', same]

theorem entries_same {at_ : String} {entries entries' : List (String × Json)} {rest rest' : List TreeRow}
    (parts : ∀ entry ∈ entries, ∀ at_ other rest rest', shown entry.2 = shown other →
      children at_ entry.2 ++ rest = children at_ other ++ rest' → entry.2 = other ∧ rest = rest')
    (fits : entries.length = entries'.length ∨ rest = [] ∧ rest' = [])
    (same : entries.flatMap (block at_) ++ rest = entries'.flatMap (block at_) ++ rest') : entries = entries' ∧ rest = rest' := by
  induction entries generalizing entries' with
  | nil =>
    cases entries' with
    | nil => exact ⟨rfl, same⟩
    | cons entry' entries' =>
      rcases fits with lengths | ⟨rfl, _⟩
      · cases lengths
      · cases same
  | cons entry entries ih =>
    cases entries' with
    | nil =>
      rcases fits with lengths | ⟨_, rfl⟩
      · cases lengths
      · cases same
    | cons entry' entries' =>
      simp only [List.flatMap_cons, block, List.cons_append, List.append_assoc] at same
      obtain ⟨head, tail⟩ := List.cons.inj same
      obtain ⟨name, value⟩ := row_same head
      rw [Option.some.inj name] at tail
      obtain ⟨values, tail⟩ := parts entry List.mem_cons_self _ _ _ _ value tail
      obtain ⟨others, rest⟩ := ih (fun e member => parts e (List.mem_cons_of_mem _ member)) (fits.imp_left Nat.succ.inj) tail
      exact ⟨by rw [others, Prod.ext (Option.some.inj name) values], rest⟩

theorem array_held (items : List Json) : (held (.array items)).map Prod.snd = items := by
  calc (held (.array items)).map Prod.snd
      _ = items.zipIdx.map Prod.fst := by rw [held, List.map_map]; rfl
      _ = items := List.zipIdx_map_fst 0 items

theorem children_same {other : Json} {at_ : String} {rest rest' : List TreeRow} (head : shown value = shown other)
    (same : children at_ value ++ rest = children at_ other ++ rest') : value = other ∧ rest = rest' := by
  induction value using held_induction generalizing at_ other rest rest' with
  | step value ih =>
    have parts := fun entry member at_ other rest rest' => @ih entry member other at_ rest rest'
    rw [children_held, children_held] at same
    cases value with
    | object entries =>
      cases other with
      | object entries' =>
        have lengths : entries.length = entries'.length := Option.some.inj (congrArg (fun shows => shows.2.2) head)
        obtain ⟨rfl, rest⟩ := entries_same parts (.inl lengths) same
        exact ⟨rfl, rest⟩
      | _ => simp only [shown, row, Prod.mk.injEq, reduceCtorEq, false_and, and_false, String.reduceEq] at head
    | array items =>
      cases other with
      | array items' =>
        have lengths : items.length = items'.length := Option.some.inj (congrArg (fun shows => shows.2.2) head)
        obtain ⟨listed, rest⟩ := entries_same parts (.inl (by simp [held, lengths])) same
        exact ⟨by rw [← array_held items, listed, array_held], rest⟩
      | _ => simp only [shown, row, Prod.mk.injEq, reduceCtorEq, false_and, and_false, String.reduceEq] at head
    | string text =>
      cases other with
      | string text' =>
        have texts : some text = some text' := congrArg (fun shows => shows.2.1) head
        exact ⟨congrArg Json.string (Option.some.inj texts), same⟩
      | _ => simp only [shown, row, Prod.mk.injEq, reduceCtorEq, false_and, and_false, String.reduceEq] at head
    | number text =>
      cases other with
      | number text' =>
        have texts : some text = some text' := congrArg (fun shows => shows.2.1) head
        exact ⟨congrArg Json.number (Option.some.inj texts), same⟩
      | _ => simp only [shown, row, Prod.mk.injEq, reduceCtorEq, false_and, and_false, String.reduceEq] at head
    | bool b =>
      cases other with
      | bool b' =>
        have texts : some (if b then "true" else "false") = some (if b' then "true" else "false") :=
          congrArg (fun shows => shows.2.1) head
        have values : b = b' := by
          revert texts
          cases b <;> cases b' <;> decide
        exact ⟨congrArg Json.bool values, same⟩
      | _ => simp only [shown, row, Prod.mk.injEq, reduceCtorEq, false_and, and_false, String.reduceEq] at head
    | null =>
      cases other with
      | null => exact ⟨rfl, same⟩
      | _ => simp only [shown, row, Prod.mk.injEq, reduceCtorEq, false_and, and_false, String.reduceEq] at head

theorem cells_injective {r r' : TreeRow} (same : r.cells = r'.cells) : r = r' := by
  have texts : ∀ {text text' : Option String}, textCell text = textCell text' → text = text' := by
    intro text text' same
    cases text <;> cases text' <;> simp_all [textCell]
  have counts : ∀ {n n' : Option Nat}, n.elim SqlCell.null (fun n => .int n) = n'.elim SqlCell.null (fun n => .int n) → n = n' := by
    intro n n' same
    cases n with
    | none => cases n' <;> simp_all
    | some n =>
      cases n' with
      | none => cases same
      | some n' =>
        injection same with same
        exact congrArg some (Int.ofNat.inj same)
  obtain ⟨id, parent, name, kind, value, count⟩ := r
  obtain ⟨id', parent', name', kind', value', count'⟩ := r'
  simp only [TreeRow.cells, List.cons.injEq, SqlCell.text.injEq, and_true] at same
  obtain ⟨rfl, parents, names, rfl, values, counted⟩ := same
  rw [texts parents, texts names, texts values, counts counted]

/-- Both objects, or both arrays. -/
def Alike : Json → Json → Prop
  | .object _, .object _ => True
  | .array _, .array _ => True
  | _, _ => False

theorem alike_same {other : Json} (alike : Alike doc other) (same : tree doc = tree other) : doc = other := by
  have rows : treeRows doc = treeRows other := List.map_injective_iff.mpr (fun _ _ => cells_injective) same
  cases doc with
  | object entries =>
    cases other with
    | object entries' =>
      have listed : (held (.object entries)).flatMap (block "") ++ [] = (held (.object entries')).flatMap (block "") ++ [] := by
        rw [← children_held, ← children_held]
        exact congrArg (· ++ []) rows
      have helds := (entries_same (fun _ _ _ _ _ _ => children_same) (.inr ⟨rfl, rfl⟩) listed).1
      exact congrArg Json.object helds
    | _ => exact alike.elim
  | array items =>
    cases other with
    | array items' =>
      have listed : (held (.array items)).flatMap (block "") ++ [] = (held (.array items')).flatMap (block "") ++ [] := by
        rw [← children_held, ← children_held]
        exact congrArg (· ++ []) rows
      have helds := (entries_same (fun _ _ _ _ _ _ => children_same) (.inr ⟨rfl, rfl⟩) listed).1
      rw [← array_held items, helds, array_held]
    | _ => exact alike.elim
  | _ => cases other <;> exact alike.elim

theorem treeRows_cases (doc : Json) : treeRows doc = children "" doc ∨ held doc = [] ∧ treeRows doc = [row "/" none none doc] := by
  cases doc with
  | object => exact .inl rfl
  | array => exact .inl rfl
  | _ => exact .inr ⟨rfl, rfl⟩

/-- The rows of a document have ids of their own, and there is one behind each value held, under
the row of its holder, with the rows under it right after it; no other document of its kind has
the same rows. -/
theorem rows_are_document {doc : Json} (keyed : Keyed doc) :
    ((treeRows doc).map TreeRow.id).Nodup ∧
    (∀ path holder entry, At doc path holder → entry ∈ held holder → rowAt (path ++ [entry.1]) entry.2 ∈ treeRows doc) ∧
    (∀ r ∈ treeRows doc,
      treeRows doc = [r] ∧ r = row "/" none none doc ∨
        ∃ path holder entry, At doc path holder ∧ entry ∈ held holder ∧ r = rowAt (path ++ [entry.1]) entry.2 ∧
          (path = [] ∧ r.parent = none ∨ rowAt path holder ∈ treeRows doc ∧ r.parent = some (rowAt path holder).id)) ∧
    (∀ r ∈ treeRows doc, ∃ before under after, treeRows doc = before ++ r :: under ++ after ∧
      ∀ r', Under (treeRows doc) r' r ↔ r' ∈ under) ∧
    (∀ other, Alike doc other → tree doc = tree other → doc = other) := by
  refine ⟨?_, ?_, ?_, ?_, fun _ => alike_same⟩
  · rcases treeRows_cases doc with rows | ⟨_, rows⟩
    · rw [rows]
      exact children_ids keyed []
    · rw [rows]
      exact List.nodup_singleton _
  · intro path holder entry found member
    rcases treeRows_cases doc with rows | ⟨empty, rows⟩
    · rw [rows]
      exact mem_rows.mpr ⟨_, _, by simp, found.inside member, rfl⟩
    · obtain ⟨first, middle, rest⟩ : ∃ name middle, (name, middle) ∈ held doc := by
        cases path with
        | nil => exact ⟨entry.1, entry.2, found.top ▸ member⟩
        | cons name path =>
          obtain ⟨middle, member, _⟩ := found.first
          exact ⟨name, middle, member⟩
      rw [empty] at rest
      cases rest
  · intro r member
    rcases treeRows_cases doc with rows | ⟨_, rows⟩
    · rw [rows] at member ⊢
      obtain ⟨path, value, inner, found, rfl⟩ := mem_rows.mp member
      obtain ⟨front, name, rfl⟩ := List.eq_nil_or_concat' path |>.resolve_left inner
      obtain ⟨holder, found, held⟩ := found.last
      refine .inr ⟨front, holder, (name, value), found, held, rfl, ?_⟩
      by_cases top : front = []
      · subst top
        exact .inl ⟨rfl, by simp [rowAt, parentAt, pointer]⟩
      · exact .inr ⟨mem_rows.mpr ⟨front, holder, top, found, rfl⟩, by rw [rowAt_parent top, rowAt, row_id]⟩
    · rw [rows] at member ⊢
      obtain rfl := List.mem_singleton.mp member
      exact .inl ⟨rfl, rfl⟩
  · intro r member
    rcases treeRows_cases doc with rows | ⟨_, rows⟩
    · rw [rows] at member ⊢
      obtain ⟨path, value, inner, found, rfl⟩ := mem_rows.mp member
      obtain ⟨before, after, parts⟩ := children_split found inner []
      exact ⟨before, children (pointer path) value, after, parts, fun r' => under_iff keyed found inner⟩
    · rw [rows] at member ⊢
      obtain rfl := List.mem_singleton.mp member
      refine ⟨[], [], [], rfl, fun r' => ⟨fun under => ?_, fun member => absurd member List.not_mem_nil⟩⟩
      obtain ⟨_, last⟩ := Relation.TransGen.tail'_iff.mp under
      obtain ⟨_, inside, _, parent⟩ := last
      rw [List.mem_singleton.mp inside, row_parent] at parent
      cases parent

theorem keyed_scalar (alone : held doc = []) (scalar : ∀ entries, doc ≠ .object entries) : Keyed doc :=
  keyed_of_held (fun entries same => absurd same (scalar entries)) fun entry member => by
    rw [alone] at member
    cases member

theorem keyed_bool (value : Bool) : Keyed (.bool value) := keyed_scalar rfl fun _ same => by cases same

/-- A document as a report might come: a key with a slash, and an array under it. -/
theorem rows_are_document_report :
    ((treeRows (.object [("a/b", .array [.bool true]), ("", .bool false)])).map TreeRow.id).Nodup := by
  refine (rows_are_document (keyed_of_held ?_ ?_)).1
  · intro entries same
    injection same with same
    rw [← same]
    decide
  · intro entry member
    rcases List.mem_cons.mp member with rfl | member
    · refine keyed_of_held (fun _ same => by cases same) fun entry member => ?_
      rw [List.mem_singleton.mp member]
      exact keyed_bool true
    · rw [List.mem_singleton.mp member]
      exact keyed_bool false

/-- An object and an array can have the same rows. -/
theorem object_rows_of_array :
    Keyed (.object [("0", .bool true)]) ∧ Keyed (.array [.bool true]) ∧
      tree (.object [("0", .bool true)]) = tree (.array [.bool true]) ∧ Json.object [("0", .bool true)] ≠ .array [.bool true] := by
  refine ⟨keyed_of_held ?_ ?_, keyed_of_held (fun _ same => by cases same) ?_, rfl, fun same => by cases same⟩
  · intro entries same
    injection same with same
    rw [← same]
    decide
  · intro entry member
    rw [List.mem_singleton.mp member]
    exact keyed_bool true
  · intro entry member
    rw [List.mem_singleton.mp member]
    exact keyed_bool true

end Oxplow.Proofs.DocumentTrees
