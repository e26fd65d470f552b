import Oxplow.Proofs.RunBudgets

/-! What a window makes of a run that changed: its old run with the loaders that the change names
taken from the new one, and all but the loaders too when the tree changed. -/

namespace Oxplow.Proofs.ChangedRuns
open Library Runner RunBudgets
open Pages (SqlCell)

/-! ## Levels -/

/-- A run in a run, by the ids of the nodes it is in. -/
inductive At : List String → PageRun → PageRun → Prop
  | here {run : PageRun} : At [] run run
  | inside {id : String} {path : List String} {run child inner : PageRun} (embedded : (id, child) ∈ run.embeds)
      (below : At path child inner) : At (id :: path) run inner

/-- The first one with these ids. -/
inductive First : List String → PageRun → PageRun → Prop
  | here {run : PageRun} : First [] run run
  | inside {id : String} {path : List String} {run child inner : PageRun}
      (found : run.embeds.find? (·.1 == id) = some (id, child)) (below : First path child inner) : First (id :: path) run inner

/-- How a change names a loader. -/
def nameAt : List String → String → String
  | [], loader => loader
  | id :: path, loader => id ++ "/" ++ nameAt path loader

variable {path : List String}

theorem First.at {run inner : PageRun} (first : First path run inner) : At path run inner := by
  induction first with
  | here => exact .here
  | inside found below ih => exact .inside (List.mem_of_find?_eq_some found) ih

theorem found_id {embeds : List (String × PageRun)} {id : String} {entry : String × PageRun}
    (found : embeds.find? (·.1 == id) = some entry) : entry.1 = id := by
  have same := List.find?_some found
  exact beq_iff_eq.mp same

variable {child : PageRun}

mutual
theorem node_runs {id : String} :
    (node : RunNode) → (id, child) ∈ node.embeds → child.runs ⊆ node.runs
  | .mk own children embed error replacedBy, embedded => by
    rw [RunNode.embeds, List.mem_append] at embedded
    rw [RunNode.runs]
    rcases embedded with embedded | embedded
    · cases embed with
      | none => exact absurd embedded List.not_mem_nil
      | some run =>
        obtain rfl : child = run := (Prod.mk.inj (List.mem_singleton.mp embedded)).2
        exact List.subset_append_left _ _
    · intro run member
      exact List.mem_append_right _ (nodes_runs children embedded member)

theorem nodes_runs {id : String} :
    (nodes : List RunNode) → (id, child) ∈ RunNode.embedsAll nodes →
    child.runs ⊆ RunNode.runsAll nodes
  | [], embedded => absurd embedded List.not_mem_nil
  | node :: nodes, embedded => by
    rw [RunNode.embedsAll, List.mem_append] at embedded
    rw [RunNode.runsAll]
    intro run member
    rcases embedded with embedded | embedded
    · exact List.mem_append_left _ (node_runs node embedded member)
    · exact List.mem_append_right _ (nodes_runs nodes embedded member)
end 

theorem embeds_runs {run : PageRun} {id : String} (embedded : (id, child) ∈ run.embeds) : child.runs ⊆ run.runs := by
  intro part member
  rw [runs_eq]
  apply List.mem_cons_of_mem
  rw [PageRun.embeds, List.mem_append] at embedded
  rcases embedded with embedded | embedded
  · exact List.mem_append_left _ (node_runs _ embedded member)
  · cases rail : run.rail with
    | none =>
      rw [rail] at embedded
      exact absurd embedded List.not_mem_nil
    | some node =>
      rw [rail] at embedded
      exact List.mem_append_right _ (node_runs node embedded member)

theorem At.member {run inner : PageRun} (at_ : At path run inner) : inner ∈ run.runs := by
  induction at_ with
  | here =>
    rw [runs_eq]
    exact List.mem_cons_self
  | inside embedded below ih => exact embeds_runs embedded ih

/-! ## What the change says of a level -/

/-- One change says all that another does. -/
structure Covers (whole part : RunChange) : Prop where
  loaders : part.loaders ⊆ whole.loaders
  tree : part.tree = true → whole.tree = true

theorem Covers.left (first second : RunChange) : Covers (first.both second) first :=
  ⟨List.subset_append_left _ _, fun changed => by simp [RunChange.both, changed]⟩

theorem Covers.right (first second : RunChange) : Covers (first.both second) second :=
  ⟨List.subset_append_right _ _, fun changed => by simp [RunChange.both, changed]⟩

theorem Covers.trans {whole middle part : RunChange} (first : Covers whole middle) (second : Covers middle part) :
    Covers whole part :=
  ⟨fun _ member => first.loaders (second.loaders member), fun changed => first.tree (second.tree changed)⟩

section
variable [DecidableEq Page]

mutual
theorem diffNode_covers {before : List (String × PageRun)} {id : String} :
    (node : RunNode) → (id, child) ∈ node.embeds → Covers (diffNode before node) (diffEmbed before id (some child))
  | .mk own children embed error replacedBy, embedded => by
    rw [RunNode.embeds, List.mem_append] at embedded
    rw [diffNode]
    rcases embedded with embedded | embedded
    · cases embed with
      | none => exact absurd embedded List.not_mem_nil
      | some run =>
        obtain ⟨rfl, rfl⟩ := Prod.mk.inj (List.mem_singleton.mp embedded)
        exact .left _ _
    · exact (Covers.right _ _).trans (diffNodes_covers children embedded)

theorem diffNodes_covers {before : List (String × PageRun)} {id : String} :
    (nodes : List RunNode) → (id, child) ∈ RunNode.embedsAll nodes →
    Covers (diffNodes before nodes) (diffEmbed before id (some child))
  | [], embedded => absurd embedded List.not_mem_nil
  | node :: nodes, embedded => by
    rw [RunNode.embedsAll, List.mem_append] at embedded
    rw [diffNodes]
    rcases embedded with embedded | embedded
    · exact (Covers.left _ _).trans (diffNode_covers node embedded)
    · exact (Covers.right _ _).trans (diffNodes_covers nodes embedded)
end 

theorem diff_eq (old new : PageRun) :
    diff old new = RunChange.both ⟨changedLoaders old new, changedTree old new⟩
      (RunChange.both (diffNode old.embeds new.tree) (diffRail old.embeds new.rail)) := by
  cases new
  rw [diff]

theorem diff_covers_own (old new : PageRun) : Covers (diff old new) ⟨changedLoaders old new, changedTree old new⟩ := by
  rw [diff_eq]
  exact .left _ _

theorem diff_covers (old : PageRun) {new : PageRun} {id : String} (embedded : (id, child) ∈ new.embeds) :
    Covers (diff old new) (diffEmbed old.embeds id (some child)) := by
  rw [diff_eq]
  apply (Covers.right _ _).trans
  rw [PageRun.embeds, List.mem_append] at embedded
  rcases embedded with embedded | embedded
  · exact (Covers.left _ _).trans (diffNode_covers _ embedded)
  · apply (Covers.right _ _).trans
    cases rail : new.rail with
    | none =>
      rw [rail] at embedded
      exact absurd embedded List.not_mem_nil
    | some node =>
      rw [rail] at embedded
      rw [diffRail]
      exact diffNode_covers node embedded

/-- An embedded page is told of with those that were in its node before. -/
theorem diff_covers_embed {old new before : PageRun} {id : String} (found : old.embeds.find? (·.1 == id) = some (id, before))
    (embedded : (id, child) ∈ new.embeds) : Covers (diff old new) (under id (diff before child)) := by
  have covers := diff_covers old embedded
  rw [diffEmbed, found] at covers
  exact covers

theorem diff_told {old new before after : PageRun} (first : First path old before) (at_ : At path new after) :
    (∀ name ∈ changedLoaders before after, nameAt path name ∈ (diff old new).loaders) ∧
      (changedTree before after = true → (diff old new).tree = true) := by
  induction first generalizing new with
  | @here run =>
    cases at_
    have covers := diff_covers_own run after
    exact ⟨fun name changed => covers.loaders changed, covers.tree⟩
  | inside found below ih =>
    cases at_ with
    | inside embedded below' =>
      obtain ⟨loaders, tree⟩ := ih below'
      have covers := diff_covers_embed found embedded
      refine ⟨?_, fun changed => covers.tree (tree changed)⟩
      intro name changed
      exact covers.loaders (List.mem_map.mpr ⟨_, loaders name changed, rfl⟩)

/-- With the tree as it was, the levels are those there were. -/
theorem diff_levels {old new : PageRun} (same : (diff old new).tree = false) :
    (∃ before, First path old before) ↔ ∃ after, At path new after := by
  induction path generalizing old new with
  | nil => exact ⟨fun _ => ⟨new, .here⟩, fun _ => ⟨old, .here⟩⟩
  | cons id path ih =>
    have inner : ∀ {before child}, old.embeds.find? (·.1 == id) = some (id, before) → (id, child) ∈ new.embeds →
        (diff before child).tree = false := by
      intro before child found embedded
      cases tree : (diff before child).tree with
      | false => rfl
      | true => exact absurd ((diff_covers_embed found embedded).tree tree) (by simp [same])
    constructor
    · rintro ⟨inner_, first⟩
      cases first with
      | inside found below =>
        have kept : changedTree old new = false := by
          cases tree : changedTree old new with
          | false => rfl
          | true => exact absurd ((diff_covers_own old new).tree tree) (by simp [same])
        simp only [changedTree, Bool.or_eq_false_iff, List.any_eq_false] at kept
        have still := kept.2 _ (List.mem_of_find?_eq_some found)
        simp only [Bool.not_eq_true', Bool.not_eq_false, List.any_eq_true, beq_iff_eq] at still
        obtain ⟨⟨other, child⟩, embedded, rfl⟩ := still
        obtain ⟨after, at_⟩ := (ih (inner found embedded)).mp ⟨_, below⟩
        exact ⟨after, .inside embedded at_⟩
    · rintro ⟨inner_, at_⟩
      cases at_ with
      | inside embedded below =>
        cases found : old.embeds.find? (·.1 == id) with
        | none =>
          have covers := diff_covers old embedded
          rw [diffEmbed, found] at covers
          exact absurd (covers.tree rfl) (by simp [same])
        | some entry =>
          obtain ⟨other, before⟩ := entry
          obtain rfl : other = id := found_id found
          obtain ⟨first, found'⟩ := (ih (inner found embedded)).mpr ⟨_, below⟩
          exact ⟨first, .inside found found'⟩

end

/-! ## What the window makes of it -/

/-- A level of the old run with the loaders that the change names taken from the new one's, and when the tree changed all but
the loaders too. -/
def fetched (change : RunChange) (path : List String) (old new : PageRun) : PageRun :=
  let named (loader : String) : Bool := change.loaders.contains (nameAt path loader)
  { (if change.tree then new else old) with loaders := old.loaders.delete named ++ new.loaders.delete fun loader => !named loader }

theorem fetched_loader (change : RunChange) (path : List String) (old new : PageRun) (loader : String) :
    (fetched change path old new).loaders.get loader =
      if change.loaders.contains (nameAt path loader) then new.loaders.get loader else old.loaders.get loader := by
  show List.lookup loader (_ ++ _) = _
  rw [List.lookup_append]
  show Option.or ((old.loaders.delete _).get loader) ((new.loaders.delete _).get loader) = _
  rw [Table.get_delete, Table.get_delete]
  by_cases named : change.loaders.contains (nameAt path loader) = true
  · rw [if_pos named, if_pos named, if_neg (by simpa using named), Option.none_or]
  · rw [if_neg named, if_neg named, if_pos (by simpa using named), Option.or_none]

/-- What a window that compares no more than the change does makes of a level is what the level shows. -/
structure Shows (shown new : PageRun) : Prop where
  page : shown.page = new.page
  tree : shown.tree.shape = new.tree.shape
  rail : shown.rail.map RunNode.shape = new.rail.map RunNode.shape
  loaders : ∀ loader, shown.loaders.get loader = new.loaders.get loader ∨
    sameLoader (shown.loaders.get loader) (new.loaders.get loader) = true

/-- All the loaders of a run's levels are of their pages. -/
def Declared (run : PageRun) : Prop :=
  ∀ part ∈ run.runs, ∀ loader, (part.loaders.get loader).isSome = true → loader ∈ part.page.loaders.map LoaderDecl.name

theorem declared_of_ran {s : Services} {page : Page} {supplied : Params} {seed : Memo} {run : PageRun}
    (ran : (runSeeded s page supplied seed).1 = .ok run) : Declared run := by
  intro part member loader there
  obtain ⟨kept, found⟩ := Option.isSome_iff_exists.mp there
  obtain ⟨before, after, split, _⟩ := List.lookup_eq_some_iff.mp found
  obtain ⟨decl, declared, named, _⟩ := runSeeded_keeps ran part member (loader, kept) (by simp [split])
  exact List.mem_map.mpr ⟨decl, declared, named⟩

theorem shows_of_told [DecidableEq Page] {change : RunChange} {before after : PageRun}
    (loaders : ∀ name ∈ changedLoaders before after, nameAt path name ∈ change.loaders)
    (tree : changedTree before after = true → change.tree = true) (declared : ∀ loader,
      (before.loaders.get loader).isSome = true ∨ (after.loaders.get loader).isSome = true →
      loader ∈ before.page.loaders.map LoaderDecl.name ∨ loader ∈ after.page.loaders.map LoaderDecl.name) :
    Shows (fetched change path before after) after := by
  have rest : (fetched change path before after).page = after.page ∧
      (fetched change path before after).tree.shape = after.tree.shape ∧
      (fetched change path before after).rail.map RunNode.shape = after.rail.map RunNode.shape := by
    cases kept : change.tree with
    | true => simp [fetched, kept]
    | false =>
      have same : changedTree before after = false := by
        cases changed : changedTree before after with
        | false => rfl
        | true => exact absurd (tree changed) (by simp [kept])
      simp only [changedTree, Bool.or_eq_false_iff, bne_eq_false_iff_eq, decide_eq_false_iff_not, ne_eq, not_not] at same
      obtain ⟨⟨⟨tree, rail⟩, page⟩, _⟩ := same
      simp [fetched, kept, tree, rail, page]
  refine ⟨rest.1, rest.2.1, rest.2.2, ?_⟩
  intro loader
  rw [fetched_loader]
  by_cases named : nameAt path loader ∈ change.loaders
  · rw [if_pos (List.contains_iff_mem.mpr named)]
    exact .inl rfl
  · rw [if_neg fun there => named (List.contains_iff_mem.mp there)]
    by_cases there : (before.loaders.get loader).isSome = true ∨ (after.loaders.get loader).isSome = true
    · right
      cases same : sameLoader (before.loaders.get loader) (after.loaders.get loader) with
      | true => rfl
      | false =>
        apply absurd (loaders loader _) named
        simp only [changedLoaders, List.mem_filter, List.mem_append, same, Bool.not_false, and_true]
        by_cases new : loader ∈ after.page.loaders.map LoaderDecl.name
        · exact .inl new
        · refine .inr ⟨(declared loader there).resolve_right new, ?_⟩
          simpa using new
    · simp only [not_or, Bool.not_eq_true, Option.isSome_eq_false_iff, Option.isNone_iff_eq_none] at there
      rw [there.1, there.2]
      exact .inl rfl

/-! ### What the change says nothing of -/

/-- Services over one query, what is not there, and where one page is mounted. -/
def services (rows : Params → List (List SqlCell)) (unmet : List String) (position : Option SlotAt) (note : Page) : Services where
  realText _ := "0.0"
  numberCell := .text
  jsonText _ := ""
  find id := if id = note.id then .ok note else .error ("no page `" ++ id ++ "`")
  mounts _ _ := [⟨note.id, position⟩]
  replacement _ _ := none
  resolveParams _ supplied := .ok supplied
  unmet needs := needs.filter unmet.contains
  needsMessage := joined
  identity := id
  keyOf _ bound _ _ := toString bound.length
  query _ _ _ _ params := .ok (table ["title", "uri"] (rows params))
  command _ _ _ := .error "no command"
  parseText _ _ := .error "no parser"
  content _ _ := .error "no content"
  evaluateAlert _ result := ⟨!result.rows.isEmpty, result.rows.length, none, ""⟩
  describe page := page.rest
  link page _ := ⟨page.id, page.id, none⟩

/-- A list of the day, with all that a page says of its rows. -/
def day : Page where
  id := "acme/day"
  params := ["day"]
  needs := ["git"]
  loaders := [⟨"rows", .sql "SELECT title, uri FROM v_day" [], [], ["day"]⟩]
  badge := some ⟨"rows", none⟩
  alert := some ⟨some 1, none, none, none, none⟩
  seeAlso := [.rows "rows"]
  view := .viz ⟨"rows", none⟩ (some "rows")
  rail := none
  lists := []
  rest := ""
  loaderNames := by decide
  nodeIds := by decide

/-- A page with another in it, once as it says and once in its slot. -/
def host : Page where
  id := "acme/host"
  params := []
  needs := []
  loaders := []
  badge := none
  alert := none
  seeAlso := []
  view := .layout ⟨"top", none⟩ false
    [.embed ⟨"acme.day", none⟩ "acme/day" [("day", .literal (.string "mon"))], .slot ⟨"more", none⟩ "more"]
  rail := none
  lists := []
  rest := ""
  loaderNames := by decide
  nodeIds := by decide

def monday : Params := [("day", .text "mon")]

def tuesday : Params := [("day", .text "tue")]

def row (title : String) : List SqlCell := [.text title, .text ("https://" ++ title)]

/-- One row; without a day that of another title. -/
def dayRows (other : String) (params : Params) : List (List SqlCell) := [row (if params.isEmpty then other else "a")]

def rowsOf (rows : List (List SqlCell)) (key : String) : Loaders := [("rows", ⟨table ["title", "uri"] rows, none, key⟩)]

def emptyDay : PageRun := ⟨day, monday, rowsOf [] "1", .leaf "rows", none, some ⟨false, 0, none, ""⟩, none, none, []⟩

def fullDay (params : Params) (title key : String) : PageRun :=
  ⟨day, params, rowsOf [row title] key, .leaf "rows", none, some ⟨true, 1, none, ""⟩, some (.text title), none,
    [⟨title, "https://" ++ title, none⟩]⟩

def inactiveDay : PageRun := ⟨day, monday, [], .leaf "rows", none, none, none, some ⟨["git"], "git"⟩, []⟩

def embedded (run : PageRun) : RunNode := .mk "acme.day" [] (some run) none none

/-- The mounted page in its slot, or after it. -/
def hostRun (inSlot : Bool) (mounted : PageRun) : PageRun :=
  ⟨host, [], [], .mk "top"
    (embedded (fullDay monday "a" "1") ::
      if inSlot then [.mk "more" [embedded mounted] none none none] else [.mk "more" [] none none none, embedded mounted])
    none none none, none, none, none, none, []⟩

theorem changedTree_of_page [DecidableEq Page] (old new : PageRun) (page : old.page = new.page) :
    changedTree old new = (old.tree.shape != new.tree.shape || old.rail.map RunNode.shape != new.rail.map RunNode.shape ||
      old.embeds.any fun embed => !new.embeds.any (·.1 == embed.1)) := by
  simp [changedTree, page]

/-- A page that is alone has the tree it had, whatever else it shows. -/
theorem alone_quiet [DecidableEq Page] (old new : PageRun) (page : old.page = new.page)
    (trees : old.tree = .leaf "rows" ∧ old.rail = none) (trees' : new.tree = .leaf "rows" ∧ new.rail = none) :
    (diff old new).tree = false := by
  rw [diff_eq, trees'.1, trees'.2]
  show (changedTree old new || false) = false
  rw [changedTree_of_page old new page, PageRun.embeds, trees.1, trees.2, trees'.1, trees'.2]
  rfl

theorem host_quiet [DecidableEq Page] (inSlot : Bool) (before after : PageRun) (page : after.page = day)
    (trees : after.tree = .leaf "rows" ∧ after.rail = none) : (diff (hostRun true before) (hostRun inSlot after)).tree = false := by
  have first := alone_quiet (fullDay monday "a" "1") (fullDay monday "a" "1") rfl ⟨rfl, rfl⟩ ⟨rfl, rfl⟩
  have second := alone_quiet (fullDay monday "a" "1") after page.symm ⟨rfl, rfl⟩ trees
  have own : changedTree (hostRun true before) (hostRun inSlot after) = false := by
    rw [changedTree_of_page (hostRun true before) (hostRun inSlot after) rfl]
    cases inSlot with
    | true => rfl
    | false => rfl
  cases after
  cases inSlot with
  | true =>
    show (changedTree _ (hostRun true _) ||
      ((false || (((diff (fullDay monday "a" "1") (fullDay monday "a" "1")).tree || false) ||
        ((false || (((diff (fullDay monday "a" "1") _).tree || false) || false)) || false))) || false)) = false
    rw [own, first, second]
    rfl
  | false =>
    show (changedTree _ (hostRun false _) ||
      ((false || (((diff (fullDay monday "a" "1") (fullDay monday "a" "1")).tree || false) ||
        ((false || false) || (((diff (fullDay monday "a" "1") _).tree || false) || false)))) || false)) = false
    rw [own, first, second]
    rfl

set_option maxRecDepth 4000 in
theorem day_ran : (runSeeded (services (fun _ => []) [] none day) day monday []).1 = .ok emptyDay := rfl

set_option maxRecDepth 4000 in
theorem day_reran : (runSeeded (services (dayRows "a") [] none day) day tuesday []).1 = .ok (fullDay tuesday "a" "1") := rfl

set_option maxRecDepth 4000 in
theorem host_ran : (runSeeded (services (dayRows "b") [] none day) host [] []).1 = .ok (hostRun true (fullDay [] "b" "0")) := rfl

set_option maxRecDepth 4000 in
theorem host_reran : (runSeeded (services (dayRows "a") [] none day) host [] []).1 = .ok (hostRun true (fullDay [] "a" "0")) := rfl

set_option maxRecDepth 4000 in
theorem host_moved : (runSeeded (services (dayRows "b") [] (some (.after "more")) day) host [] []).1 =
    .ok (hostRun false (fullDay [] "b" "0")) := rfl

/-- Of two runs of a page, the change of the second from the first tells a window every level. While it says that the tree did
not change, the levels are the same; and a level that the first run has, taken with the loaders named and with the tree, has the
new one's page, its nodes with their errors, its rows and its loaders' errors. -/
theorem told_of_change [DecidableEq Page] {s s' : Services} {page page' : Page} {supplied supplied' : Params} {seed seed' : Memo}
    {old new : PageRun} (ran : (runSeeded s page supplied seed).1 = .ok old)
    (ran' : (runSeeded s' page' supplied' seed').1 = .ok new) :
    ((diff old new).tree = false → ∀ path, (∃ before, First path old before) ↔ ∃ after, At path new after) ∧
      ∀ path before after, First path old before → At path new after → Shows (fetched (diff old new) path before after) after := by
  refine ⟨fun same path => diff_levels same, ?_⟩
  intro path before after first at_
  obtain ⟨loaders, tree⟩ := diff_told first at_
  apply shows_of_told loaders tree
  intro loader there
  exact there.imp (declared_of_ran ran before first.at.member loader) (declared_of_ran ran' after at_.member loader)

open Classical in
theorem told_of_change_day :
    (runSeeded (services (fun _ => []) [] none day) day monday []).1 = .ok emptyDay ∧
      (runSeeded (services (dayRows "a") [] none day) day tuesday []).1 = .ok (fullDay tuesday "a" "1") ∧
      Shows (fetched (diff emptyDay (fullDay tuesday "a" "1")) [] emptyDay (fullDay tuesday "a" "1")) (fullDay tuesday "a" "1") :=
  ⟨day_ran, day_reran, (told_of_change day_ran day_reran).2 [] _ _ .here .here⟩

open Classical in
/-- A level is left with the old run's params, badge, alert, links and notice; where two nodes have one id it may be left with
the other's rows; and a node that moved is left where it was. -/
theorem change_says_no_more :
    (((runSeeded (services (fun _ => []) [] none day) day monday []).1 = .ok emptyDay ∧
      (runSeeded (services (dayRows "a") [] none day) day tuesday []).1 = .ok (fullDay tuesday "a" "1")) ∧
      let shown := fetched (diff emptyDay (fullDay tuesday "a" "1")) [] emptyDay (fullDay tuesday "a" "1")
      let new := fullDay tuesday "a" "1"
      shown.params ≠ new.params ∧ shown.badge ≠ new.badge ∧ shown.alert ≠ new.alert ∧ shown.seeAlso ≠ new.seeAlso) ∧
    ((runSeeded (services (fun _ => []) ["git"] none day) day monday []).1 = .ok inactiveDay ∧
      (fetched (diff emptyDay inactiveDay) [] emptyDay inactiveDay).inactive ≠ inactiveDay.inactive) ∧
    (((runSeeded (services (dayRows "b") [] none day) host [] []).1 = .ok (hostRun true (fullDay [] "b" "0")) ∧
      (runSeeded (services (dayRows "a") [] none day) host [] []).1 = .ok (hostRun true (fullDay [] "a" "0"))) ∧
      At ["acme.day"] (hostRun true (fullDay [] "b" "0")) (fullDay [] "b" "0") ∧
      At ["acme.day"] (hostRun true (fullDay [] "a" "0")) (fullDay [] "a" "0") ∧
      (fetched (diff (hostRun true (fullDay [] "b" "0")) (hostRun true (fullDay [] "a" "0"))) ["acme.day"]
        (fullDay [] "b" "0") (fullDay [] "a" "0")).loaders = rowsOf [row "b"] "0") ∧
    ((runSeeded (services (dayRows "b") [] (some (.after "more")) day) host [] []).1 = .ok (hostRun false (fullDay [] "b" "0")) ∧
      (fetched (diff (hostRun true (fullDay [] "b" "0")) (hostRun false (fullDay [] "b" "0"))) []
        (hostRun true (fullDay [] "b" "0")) (hostRun false (fullDay [] "b" "0"))).tree ≠
      (hostRun false (fullDay [] "b" "0")).tree) := by
  have quiet := alone_quiet emptyDay (fullDay tuesday "a" "1") rfl ⟨rfl, rfl⟩ ⟨rfl, rfl⟩
  have quiet' := alone_quiet emptyDay inactiveDay rfl ⟨rfl, rfl⟩ ⟨rfl, rfl⟩
  have same := host_quiet true (fullDay [] "b" "0") (fullDay [] "a" "0") rfl ⟨rfl, rfl⟩
  have moved := host_quiet false (fullDay [] "b" "0") (fullDay [] "b" "0") rfl ⟨rfl, rfl⟩
  refine ⟨⟨⟨day_ran, day_reran⟩, ?_⟩, ⟨rfl, ?_⟩, ⟨⟨host_ran, host_reran⟩, ?_, ?_, ?_⟩, host_moved, ?_⟩
  · simp only [fetched, quiet, Bool.false_eq_true, if_false]
    decide
  · simp only [fetched, quiet', Bool.false_eq_true, if_false]
    decide
  · exact .inside (.tail _ (.head _)) .here
  · exact .inside (.tail _ (.head _)) .here
  · rfl
  · simp only [fetched, moved, Bool.false_eq_true, if_false]
    intro still
    injection still with _ nodes
    injection nodes with _ rest
    injection rest with _ rest
    injection rest

end Oxplow.Proofs.ChangedRuns
