import Mathlib.Data.List.Nodup
import Oxplow.Pages.Runner
import Oxplow.Proofs.ResultAdmission

/-! A run of a page stays in its budget: what is taken from it for each loader covers what is kept,
and what fails gives back all it took. -/

namespace Oxplow.Proofs.RunBudgets
open Library Runner ResultAdmission

/-! ## What a run keeps -/

/-- A whole result that a loader with this key gave: in the run that is reused, or itself, or a page's
loader that it takes, of which it has what that page's run kept. -/
inductive Gave (s : Services) (seed : Memo) : String → SqlQueryResult → Prop
  | seeded {key : String} {run : LoaderRun} (held : seed.get key = some run) : Gave s seed key run.result
  | own {run : Running} {page : Page} {decl : LoaderDecl} {params : Params} {earlier : Loaders} {data : RunData}
      {whole : SqlQueryResult} (own_ : decl.loader.isPage = false)
      (gives : (loaderOutcome s run page decl params earlier data).1 = .ok whole) : Gave s seed (loaderKey s decl params earlier) whole
  | taken {decl other : LoaderDecl} {params inner : Params} {earlier earlier' : Loaders} {target loader : String} {given : Args}
      {child : Page} {whole part : SqlQueryResult} (takes : decl.loader = .page target loader given)
      (found : s.find target = .ok child) (declared : other ∈ child.loaders) (named : other.name = loader)
      (gave : Gave s seed (loaderKey s other inner earlier') whole) (cut : Cut whole part) :
      Gave s seed (loaderKey s decl params earlier) part

/-- What is kept of a loader's run: a part of what it gave, or of nothing when it failed. -/
def Keeps (s : Services) (seed : Memo) (key : String) (kept : LoaderRun) : Prop :=
  ∃ whole, (Gave s seed key whole ∨ kept.error.isSome = true ∧ whole = table [] []) ∧ Cut whole kept.result

/-- Each loader of a run is kept of one that its page declares. -/
def KeepsAll (s : Services) (seed : Memo) (page : Page) (params : Params) (loaders : Loaders) : Prop :=
  ∀ entry ∈ loaders, ∃ decl ∈ page.loaders, decl.name = entry.1 ∧ ∃ earlier, Keeps s seed (loaderKey s decl params earlier) entry.2

def MemoKeeps (s : Services) (seed memo : Memo) : Prop := ∀ key run, memo.get key = some run → Keeps s seed key run

def loadersBytes (s : Services) (loaders : Loaders) : Nat := (loaders.map fun entry => entry.2.result.bytes s.realText).sum

/-- The sizes of all that some runs keep. -/
def keptBytes (s : Services) (runs : List PageRun) : Nat := (runs.map fun run => loadersBytes s run.loaders).sum

theorem keptBytes_append (s : Services) (runs more : List PageRun) :
    keptBytes s (runs ++ more) = keptBytes s runs + keptBytes s more := by
  simp [keptBytes]

theorem keptBytes_cons (s : Services) (run : PageRun) (runs : List PageRun) :
    keptBytes s (run :: runs) = loadersBytes s run.loaders + keptBytes s runs := by
  simp [keptBytes]

theorem runs_eq (run : PageRun) : run.runs = run :: (run.tree.runs ++ railRuns run.rail) := by
  cases run
  rfl

/-- What a part of a run does to the data that the parts share: it keeps runs, and pays for them. -/
structure Accounts (s : Services) (seed : Memo) (data next : RunData) (runs : List PageRun) : Prop where
  spends : Spends data.budget next.budget (keptBytes s runs)
  memo : MemoKeeps s seed data.memo → MemoKeeps s seed next.memo
  kept : MemoKeeps s seed data.memo → ∀ run ∈ runs, KeepsAll s seed run.page run.params run.loaders

section
variable {s : Services} {seed : Memo}

theorem Accounts.nothing (data : RunData) : Accounts s seed data data [] :=
  ⟨⟨rfl, Nat.le_of_eq (Nat.zero_add _)⟩, id, fun _ _ member => absurd member List.not_mem_nil⟩

variable {data next : RunData}

theorem Accounts.append {middle : RunData} {runs more : List PageRun} (first : Accounts s seed data middle runs)
    (second : Accounts s seed middle next more) : Accounts s seed data next (runs ++ more) := by
  refine ⟨?_, fun memo => second.memo (first.memo memo), ?_⟩
  · rw [keptBytes_append]
    exact first.spends.trans second.spends
  · intro memo run member
    rcases List.mem_append.mp member with member | member
    · exact first.kept memo run member
    · exact second.kept (first.memo memo) run member

/-- The data when what was spent since is given back. -/
def RunData.since (next : RunData) (remaining : Nat) : RunData := { next with budget := next.budget.restore remaining }

/-- A page's run accounts for what it keeps; one that fails, for nothing once its spending is given back. -/
structure Sound (s : Services) (seed : Memo) (run : Running) : Prop where
  keeps : ∀ {page supplied data out}, (run page supplied data).1 = .ok out →
    Accounts s seed data (run page supplied data).2 out.runs ∧ out.page.loaders = page.loaders
  fails : ∀ page supplied data, Accounts s seed data (RunData.since (run page supplied data).2 data.budget.remaining) []

/-! ### Loaders -/

theorem mem_of_get {α : Type} {table : Table String α} {key : String} {row : α} (found : table.get key = some row) :
    (key, row) ∈ table := by
  unfold Table.get at found
  obtain ⟨before, after, rfl, _⟩ := List.lookup_eq_some_iff.mp found
  exact List.mem_append_right _ List.mem_cons_self

variable {run : Running}

theorem loaderOutcome_own {page : Page} {decl : LoaderDecl} (own : decl.loader.isPage = false) (params : Params)
    (earlier : Loaders) (data : RunData) : (loaderOutcome s run page decl params earlier data).2 = data := by
  unfold loaderOutcome
  cases loader : decl.loader with
  | page target name given =>
    rw [loader] at own
    cases own
  | sql sql given =>
    dsimp only
    split
    · rfl
    · rfl
    · rfl
  | command command args items => rfl
  | rows columns rows => rfl
  | parse format text => rfl
  | content text maxBytes => rfl

/-- A page loader takes what the page's run kept of one of its loaders. -/
theorem selected_keeps {target loader : String} {out : Except String PageRun} {whole : SqlQueryResult}
    (takes : selected target loader out = .ok whole) :
    ∃ run kept, out = .ok run ∧ (loader, kept) ∈ run.loaders ∧ kept.error = none ∧ kept.result = whole := by
  cases out with
  | error e => cases takes
  | ok run =>
    simp only [selected] at takes
    cases found : run.loaders.get loader with
    | none =>
      simp only [found] at takes
      cases takes
    | some kept =>
      simp only [found] at takes
      cases failed : kept.error with
      | some e =>
        simp only [failed, Option.elim] at takes
        cases takes
      | none =>
        simp only [failed, Option.elim, Except.ok.injEq] at takes
        exact ⟨run, kept, rfl, mem_of_get found, failed, takes⟩

/-- A loader's own work leaves the budget as it was, and gives what its key says. -/
theorem loaderOutcome_gives (sound : Sound s seed run) (page : Page) (decl : LoaderDecl) (params : Params) (earlier : Loaders)
    (data : RunData) :
    (loaderOutcome s run page decl params earlier data).2.budget = data.budget ∧
      (MemoKeeps s seed data.memo → MemoKeeps s seed (loaderOutcome s run page decl params earlier data).2.memo ∧
        ∀ whole, (loaderOutcome s run page decl params earlier data).1 = .ok whole →
          Gave s seed (loaderKey s decl params earlier) whole) := by
  cases own : decl.loader.isPage with
  | false =>
    rw [loaderOutcome_own own]
    exact ⟨rfl, fun memo => ⟨memo, fun whole gives => .own own gives⟩⟩
  | true =>
    cases takes : decl.loader with
    | page target loader given =>
      simp only [loaderOutcome, takes]
      cases found : s.find target with
      | error e => exact ⟨rfl, fun memo => ⟨memo, fun whole gives => (nomatch gives)⟩⟩
      | ok other =>
        dsimp only
        split
        · exact ⟨rfl, fun memo => ⟨memo, fun whole gives => (nomatch gives)⟩⟩
        · generalize given_ : ((bindArgs s given params earlier).map fun arg => (arg.1, jsonCell s arg.2)) = inner
          have fails := sound.fails other inner { data with budget := data.budget.restore maxResultBytes }
          have keeps := @Sound.keeps _ _ _ sound other inner { data with budget := data.budget.restore maxResultBytes }
          generalize run other inner { data with budget := data.budget.restore maxResultBytes } = out at fails keeps
          obtain ⟨out, after⟩ := out
          have underflow : after.budget.underflow = data.budget.underflow := fails.spends.underflow
          refine ⟨?_, fun memo => ⟨fails.memo memo, ?_⟩⟩
          · show (⟨data.budget.remaining, after.budget.underflow⟩ : ResultBudget) = data.budget
            rw [underflow]
          · intro whole gives
            obtain ⟨ran, kept, rfl, member, unfailed, rfl⟩ := selected_keeps gives
            obtain ⟨accounts, declared⟩ := keeps rfl
            have first : ran ∈ ran.runs := by
              rw [runs_eq]
              exact List.mem_cons_self
            obtain ⟨decl', inside, named, earlier', all, source, cut⟩ := accounts.kept memo ran first (loader, kept) member
            rw [declared] at inside
            rcases source with gave | ⟨failed, _⟩
            · exact .taken takes found inside named gave cut
            · rw [unfailed] at failed
              cases failed
    | sql sql given =>
      rw [takes] at own
      cases own
    | command command args items =>
      rw [takes] at own
      cases own
    | rows columns rows =>
      rw [takes] at own
      cases own
    | parse format text =>
      rw [takes] at own
      cases own
    | content text maxBytes =>
      rw [takes] at own
      cases own

theorem bounded_cuts (budget : ResultBudget) (outcome : Except String SqlQueryResult) :
    (bounded s budget outcome).2 = budget ∧
      ∀ kept, (bounded s budget outcome).1 = .ok kept → ∃ whole, outcome = .ok whole ∧ Cut whole kept := by
  cases outcome with
  | error e => exact ⟨rfl, fun kept gives => (nomatch gives)⟩
  | ok whole =>
    dsimp only [bounded]
    have spends := @admit_spends s.realText (budget.restore maxResultBytes) whole
    have refuses := @admit_refuses s.realText (budget.restore maxResultBytes) whole
    generalize (budget.restore maxResultBytes).admitResult s.realText whole = out at spends refuses
    obtain ⟨out, own⟩ := out
    cases out with
    | error e =>
      obtain rfl : own = budget.restore maxResultBytes := refuses rfl
      refine ⟨?_, ?_⟩
      · show (⟨budget.remaining, budget.underflow⟩ : ResultBudget) = budget
        rfl
      · intro kept gives
        simp only [Except.map, reduceCtorEq] at gives
    | ok part =>
      obtain ⟨kept, cropped⟩ := part
      obtain ⟨paid, cut⟩ := spends rfl
      refine ⟨?_, ?_⟩
      · show (⟨budget.remaining, own.underflow⟩ : ResultBudget) = budget
        rw [paid.underflow]
        rfl
      · rintro other gives
        obtain rfl : kept = other := Except.ok.inj gives
        exact ⟨whole, rfl, cut⟩

theorem memoKeeps_insert {memo : Memo} (keeps : MemoKeeps s seed memo) {key : String} {run : LoaderRun}
    (kept : Keeps s seed key run) : MemoKeeps s seed (memo.insert key run) := by
  intro other held found
  rw [Table.get_insert] at found
  split at found
  next same =>
    obtain rfl := Option.some.inj found
    rw [same]
    exact kept
  next differs => exact keeps other held found

theorem runLoader_keeps (sound : Sound s seed run) (page : Page) (decl : LoaderDecl) (params : Params) (earlier : Loaders)
    (data : RunData) :
    (runLoader s run page decl params earlier data).2.budget = data.budget ∧
      (MemoKeeps s seed data.memo → MemoKeeps s seed (runLoader s run page decl params earlier data).2.memo ∧
        Keeps s seed (loaderKey s decl params earlier) (runLoader s run page decl params earlier data).1) := by
  cases hit : data.memo.get (loaderKey s decl params earlier) with
  | some held =>
    have same : runLoader s run page decl params earlier data = (held, data) := by simp only [runLoader, hit]
    rw [same]
    exact ⟨rfl, fun memo => ⟨memo, memo _ held hit⟩⟩
  | none =>
    simp only [runLoader, hit]
    obtain ⟨budget, gives⟩ := loaderOutcome_gives sound page decl params earlier data
    generalize loaderOutcome s run page decl params earlier data = out at budget gives ⊢
    obtain ⟨outcome, next⟩ := out
    obtain ⟨same, cuts⟩ := @bounded_cuts s next.budget outcome
    generalize bounded s next.budget outcome = out at same cuts ⊢
    obtain ⟨part, own⟩ := out
    refine ⟨same.trans budget, ?_⟩
    intro memo
    obtain ⟨memo', gave⟩ := gives memo
    have kept : Keeps s seed (loaderKey s decl params earlier) (loaderRun decl (loaderKey s decl params earlier) part) := by
      cases part with
      | error e => exact ⟨table [] [], .inr ⟨rfl, rfl⟩, .refl _⟩
      | ok kept =>
        obtain ⟨whole, rfl, cut⟩ := cuts kept rfl
        exact ⟨whole, .inl (gave whole rfl), cut⟩
    exact ⟨memoKeeps_insert memo' kept, kept⟩

/-- The loaders that run keep what they pay for. -/
theorem runLoaders_accounts (sound : Sound s seed run) (page : Page) (params : Params) (skipped : List String)
    {decls : List LoaderDecl} (declared : ∀ decl ∈ decls, decl ∈ page.loaders) (loaders : Loaders) (data : RunData) :
    ((runLoaders s run page params skipped decls loaders data).2.budget.underflow = data.budget.underflow ∧
      (MemoKeeps s seed data.memo → MemoKeeps s seed (runLoaders s run page params skipped decls loaders data).2.memo)) ∧
      ∀ out, (runLoaders s run page params skipped decls loaders data).1 = .ok out →
        loadersBytes s loaders + data.budget.remaining ≥
          loadersBytes s out + (runLoaders s run page params skipped decls loaders data).2.budget.remaining ∧
        (MemoKeeps s seed data.memo → KeepsAll s seed page params loaders → KeepsAll s seed page params out) := by
  induction decls generalizing loaders data with
  | nil =>
    refine ⟨⟨rfl, id⟩, ?_⟩
    intro out same
    obtain rfl : loaders = out := Except.ok.inj same
    exact ⟨Nat.le_refl _, fun _ keeps => keeps⟩
  | cons decl decls ih =>
    have later : ∀ decl ∈ decls, decl ∈ page.loaders := fun decl member => declared decl (List.mem_cons_of_mem _ member)
    unfold runLoaders
    by_cases skip : skipped.contains decl.name = true
    · rw [if_pos skip]
      exact ih later loaders data
    · rw [if_neg skip]
      obtain ⟨budget, keeps⟩ := runLoader_keeps sound page decl params loaders data
      generalize runLoader s run page decl params loaders data = ran at budget keeps ⊢
      obtain ⟨ran, next⟩ := ran
      have spends := @admit_spends s.realText next.budget ran.result
      have refuses := @admit_refuses s.realText next.budget ran.result
      dsimp only at budget keeps ⊢
      rw [budget] at spends refuses ⊢
      generalize data.budget.admitResult s.realText ran.result = out at spends refuses ⊢
      obtain ⟨out, left⟩ := out
      cases out with
      | error e =>
        obtain rfl : left = data.budget := refuses rfl
        exact ⟨⟨rfl, fun memo => (keeps memo).1⟩, fun out same => (nomatch same)⟩
      | ok part =>
        obtain ⟨kept, cropped⟩ := part
        obtain ⟨paid, cut⟩ := spends rfl
        dsimp only at paid ⊢
        obtain ⟨⟨underflow, memo'⟩, rest⟩ :=
          ih later (loaders ++ [(decl.name, admitted ran (kept, cropped))]) { next with budget := left }
        refine ⟨⟨underflow.trans paid.underflow, fun memo => memo' (keeps memo).1⟩, ?_⟩
        intro out same
        obtain ⟨bytes, all⟩ := rest out same
        refine ⟨?_, ?_⟩
        · have covers := paid.covers
          have more : loadersBytes s (loaders ++ [(decl.name, admitted ran (kept, cropped))]) =
              loadersBytes s loaders + kept.bytes s.realText := by
            simp [loadersBytes, admitted]
          rw [more] at bytes
          dsimp only at bytes
          omega
        · intro memo before
          apply all (keeps memo).1
          intro entry member
          rcases List.mem_append.mp member with member | member
          · exact before entry member
          · obtain rfl := List.mem_singleton.mp member
            obtain ⟨whole, source, cut'⟩ := (keeps memo).2
            exact ⟨decl, declared decl List.mem_cons_self, rfl, loaders, whole, source, cut'.trans cut⟩

/-! ### Nodes -/

def nodesBytes (s : Services) (nodes : List RunNode) : Nat := (nodes.map fun node => keptBytes s node.runs).sum

theorem nodesBytes_append (nodes more : List RunNode) : nodesBytes s (nodes ++ more) = nodesBytes s nodes + nodesBytes s more := by
  simp [nodesBytes]

theorem nodesBytes_cons (node : RunNode) (nodes : List RunNode) :
    nodesBytes s (node :: nodes) = keptBytes s node.runs + nodesBytes s nodes := by
  simp [nodesBytes]

theorem keptBytes_runsAll (nodes : List RunNode) : keptBytes s (RunNode.runsAll nodes) = nodesBytes s nodes := by
  induction nodes with
  | nil => rfl
  | cons node nodes ih => rw [RunNode.runsAll, keptBytes_append, ih, nodesBytes_cons]

theorem mem_runsAll {run : PageRun} {nodes : List RunNode} : run ∈ RunNode.runsAll nodes ↔ ∃ node ∈ nodes, run ∈ node.runs := by
  induction nodes with
  | nil => simp [RunNode.runsAll]
  | cons node nodes ih => simp [RunNode.runsAll, ih]

/-- Some of the runs, at no more bytes. -/
theorem Accounts.part {runs some_ : List PageRun} (accounts : Accounts s seed data next runs)
    (bytes : keptBytes s some_ ≤ keptBytes s runs) (members : ∀ run ∈ some_, run ∈ runs) : Accounts s seed data next some_ := by
  refine ⟨⟨accounts.spends.underflow, ?_⟩, accounts.memo, fun memo run member => accounts.kept memo run (members run member)⟩
  have := accounts.spends.covers
  omega

theorem runEmbedded_accounts (sound : Sound s seed run) (host : Page) (node target : String) (given : Args) (params : Params)
    (loaders : Loaders) (data : RunData) :
    Accounts s seed data (runEmbedded s run host node target given params loaders data).2
      (runEmbedded s run host node target given params loaders data).1.runs ∧
      (runEmbedded s run host node target given params loaders data).1.id = node := by
  unfold runEmbedded
  cases found : s.find target with
  | error e => exact ⟨.nothing data, rfl⟩
  | ok child =>
    dsimp only
    have fails := sound.fails child (flowParams s child given params loaders host.loaders) data
    have keeps := @Sound.keeps _ _ _ sound child (flowParams s child given params loaders host.loaders) data
    generalize run child (flowParams s child given params loaders host.loaders) data = out at fails keeps
    obtain ⟨out, next⟩ := out
    cases out with
    | error e => exact ⟨fails, rfl⟩
    | ok ran =>
      refine ⟨?_, rfl⟩
      have runs : (RunNode.mk node [] (some ran) none none).runs = ran.runs := List.append_nil _
      rw [runs]
      exact (keeps rfl).1

theorem runMounts_accounts (sound : Sound s seed run) (host : Page) (params : Params) (loaders : Loaders) (mounts : List PageSlot)
    (data : RunData) :
    Accounts s seed data (runMounts s run host params loaders mounts data).2
      (RunNode.runsAll ((runMounts s run host params loaders mounts data).1.map (·.2))) := by
  induction mounts generalizing data with
  | nil => exact .nothing data
  | cons mount mounts ih => exact (runEmbedded_accounts sound host _ _ _ params loaders data).1.append (ih _)

/-! ### Layouts -/

/-- All that the parts of a layout hold. -/
def allParts (parts : Parts) : List RunNode :=
  parts.start ++ (parts.before.map (·.2) ++ (parts.after.map (·.2) ++ parts.resolved))

/-- What is mounted in a slot goes to one place each. -/
theorem mounted_bytes (mounted : List (Option SlotAt × RunNode)) :
    nodesBytes s (mounted.map (·.2)) = nodesBytes s (mounted.filterMap Parts.atStart) +
      nodesBytes s ((mounted.filterMap Parts.atBefore).map (·.2)) + nodesBytes s ((mounted.filterMap Parts.atAfter).map (·.2)) +
      nodesBytes s (mounted.filterMap Parts.atSlot) := by
  induction mounted with
  | nil => rfl
  | cons mount mounted ih =>
    obtain ⟨position, node⟩ := mount
    rw [List.map_cons, nodesBytes_cons, ih]
    rcases position with _ | _ | _ | id | id
    · simp only [List.filterMap_cons, Parts.atStart, Parts.atBefore, Parts.atAfter, Parts.atSlot, nodesBytes_cons]
      omega
    · simp only [List.filterMap_cons, Parts.atStart, Parts.atBefore, Parts.atAfter, Parts.atSlot, nodesBytes_cons]
      omega
    · simp only [List.filterMap_cons, Parts.atStart, Parts.atBefore, Parts.atAfter, Parts.atSlot, nodesBytes_cons]
      omega
    · simp only [List.filterMap_cons, Parts.atStart, Parts.atBefore, Parts.atAfter, Parts.atSlot, List.map_cons, nodesBytes_cons]
      omega
    · simp only [List.filterMap_cons, Parts.atStart, Parts.atBefore, Parts.atAfter, Parts.atSlot, List.map_cons, nodesBytes_cons]
      omega

theorem mem_of_place {mounted : List (Option SlotAt × RunNode)} {run : PageRun} {node : RunNode}
    (placed : node ∈ mounted.filterMap Parts.atStart ∨ node ∈ (mounted.filterMap Parts.atBefore).map (·.2) ∨
      node ∈ (mounted.filterMap Parts.atAfter).map (·.2) ∨ node ∈ mounted.filterMap Parts.atSlot)
    (inside : run ∈ node.runs) : run ∈ RunNode.runsAll (mounted.map (·.2)) := by
  apply mem_runsAll.mpr
  refine ⟨node, ?_, inside⟩
  induction mounted with
  | nil => simp at placed
  | cons mount mounted ih =>
    obtain ⟨position, first⟩ := mount
    rw [List.map_cons, List.mem_cons]
    rcases position with _ | _ | _ | id | id
    all_goals
      simp only [List.filterMap_cons, Parts.atStart, Parts.atBefore, Parts.atAfter, Parts.atSlot, List.map_cons,
        List.mem_cons] at placed
      by_cases same : node = first
      · exact .inl same
      · simp only [same, false_or] at placed
        exact .inr (ih placed)

theorem slot_accounts {middle : RunData} {mounted : List (Option SlotAt × RunNode)} {rest : Parts} (id : String)
    (first : Accounts s seed data middle (RunNode.runsAll (mounted.map (·.2))))
    (second : Accounts s seed middle next (RunNode.runsAll (allParts rest))) :
    Accounts s seed data next (RunNode.runsAll (allParts (rest.slot id mounted))) := by
  apply (first.append second).part
  · have placed := @mounted_bytes s mounted
    have slot : (RunNode.mk id (mounted.filterMap Parts.atSlot) none none none).runs =
      RunNode.runsAll (mounted.filterMap Parts.atSlot) := rfl
    simp only [keptBytes_append, keptBytes_runsAll, allParts, Parts.slot, nodesBytes_append, List.map_append, nodesBytes_cons, slot]
    omega
  · intro run member
    obtain ⟨node, part, inside⟩ := mem_runsAll.mp member
    rw [List.mem_append]
    simp only [allParts, Parts.slot, List.map_append, List.mem_append, List.mem_cons] at part
    have later : node ∈ allParts rest → run ∈ RunNode.runsAll (allParts rest) := fun part => mem_runsAll.mpr ⟨node, part, inside⟩
    simp only [allParts, List.mem_append] at later
    rcases part with (part | part) | (part | part) | (part | part) | (rfl | part)
    · exact .inl (mem_of_place (.inl part) inside)
    · exact .inr (later (.inl part))
    · exact .inl (mem_of_place (.inr (.inl part)) inside)
    · exact .inr (later (.inr (.inl part)))
    · exact .inl (mem_of_place (.inr (.inr (.inl part))) inside)
    · exact .inr (later (.inr (.inr (.inl part))))
    · obtain ⟨kept, place, within⟩ := mem_runsAll.mp inside
      exact .inl (mem_of_place (.inr (.inr (.inr place))) within)
    · exact .inr (later (.inr (.inr (.inr part))))

theorem single_le {ids : List String} (distinct : ids.Nodup) (id : String) (bytes : Nat) :
    (ids.map fun other => if id == other then bytes else 0).sum ≤ bytes := by
  induction ids with
  | nil => exact Nat.zero_le _
  | cons first ids ih =>
    obtain ⟨fresh, distinct⟩ := List.nodup_cons.mp distinct
    rw [List.map_cons, List.sum_cons]
    by_cases same : id = first
    · subst same
      have others : (ids.map fun other => if id == other then bytes else 0) = ids.map fun _ => 0 := by
        apply List.map_congr_left
        intro other member
        have differs : id ≠ other := fun same => fresh (same ▸ member)
        simp [differs]
      rw [others]
      simp
    · have differs : (id == first) = false := beq_false_of_ne same
      rw [differs, if_neg Bool.false_ne_true, Nat.zero_add]
      exact ih distinct

/-- Nodes that go beside others are there once, as these have ids of their own. -/
theorem beside_bytes {ids : List String} (distinct : ids.Nodup) (nodes : List (String × RunNode)) :
    (ids.map fun id => nodesBytes s (Parts.beside id nodes)).sum ≤ nodesBytes s (nodes.map (·.2)) := by
  induction nodes with
  | nil => simp [Parts.beside, nodesBytes]
  | cons entry nodes ih =>
    obtain ⟨anchor, node⟩ := entry
    have split : ∀ id, nodesBytes s (Parts.beside id ((anchor, node) :: nodes)) =
        (if anchor == id then keptBytes s node.runs else 0) + nodesBytes s (Parts.beside id nodes) := by
      intro id
      by_cases same : (anchor == id) = true
      · simp [Parts.beside, same, nodesBytes_cons]
      · simp [Parts.beside, same]
    have single := single_le distinct anchor (keptBytes s node.runs)
    have sums : (ids.map fun id => nodesBytes s (Parts.beside id ((anchor, node) :: nodes))).sum =
        (ids.map fun id => if anchor == id then keptBytes s node.runs else 0).sum +
          (ids.map fun id => nodesBytes s (Parts.beside id nodes)).sum := by
      clear ih single distinct
      induction ids with
      | nil => rfl
      | cons id ids ih =>
        simp only [List.map_cons, List.sum_cons]
        rw [ih, split id]
        omega
    rw [sums, List.map_cons, nodesBytes_cons]
    dsimp only
    omega

theorem children_accounts {parts : Parts} (distinct : (parts.resolved.map RunNode.id).Nodup)
    (accounts : Accounts s seed data next (RunNode.runsAll (allParts parts))) :
    Accounts s seed data next (RunNode.runsAll parts.children) := by
  apply accounts.part
  · have before := @beside_bytes s _ distinct parts.before
    have after := @beside_bytes s _ distinct parts.after
    have resolved : nodesBytes s (parts.resolved.flatMap fun node =>
          Parts.beside node.id parts.before ++ node :: Parts.beside node.id parts.after) =
        ((parts.resolved.map RunNode.id).map fun id => nodesBytes s (Parts.beside id parts.before)).sum +
          (nodesBytes s parts.resolved +
            ((parts.resolved.map RunNode.id).map fun id => nodesBytes s (Parts.beside id parts.after)).sum) := by
      clear before after distinct accounts
      induction parts.resolved with
      | nil => rfl
      | cons node nodes ih =>
        simp only [List.flatMap_cons, List.map_cons, List.sum_cons, nodesBytes_append, nodesBytes_cons]
        rw [ih]
        omega
    simp only [keptBytes_runsAll, allParts, Parts.children, nodesBytes_append]
    rw [resolved]
    omega
  · intro run member
    obtain ⟨node, child, inside⟩ := mem_runsAll.mp member
    refine mem_runsAll.mpr ⟨node, ?_, inside⟩
    simp only [Parts.children, List.mem_append, List.mem_flatMap, List.mem_cons, Parts.beside, List.mem_map,
      List.mem_filter] at child
    simp only [allParts, List.mem_append, List.mem_map]
    rcases child with start | ⟨other, there, ⟨entry, ⟨kept, _⟩, rfl⟩ | rfl | ⟨entry, ⟨kept, _⟩, rfl⟩⟩
    · exact .inl start
    · exact .inr (.inl ⟨entry, kept, rfl⟩)
    · exact .inr (.inr (.inr there))
    · exact .inr (.inr (.inl ⟨entry, kept, rfl⟩))

/-! ### The tree -/

def idsOf (nodes : List Node) : List String := nodes.map fun node => node.head.id

theorem heads_sublist (nodes : List Node) : (idsOf nodes).Sublist (idsOf (Node.walkAll nodes)) := by
  induction nodes with
  | nil => exact List.Sublist.refl _
  | cons node nodes ih =>
    have first : ∃ below, node.walk = node :: below := by
      cases node with
      | layout head grid children => exact ⟨_, rfl⟩
      | switch head param children => exact ⟨_, rfl⟩
      | viz head rows => exact ⟨_, rfl⟩
      | embed head page params => exact ⟨_, rfl⟩
      | slot head name => exact ⟨_, rfl⟩
      | fixed head => exact ⟨_, rfl⟩
    obtain ⟨below, walks⟩ := first
    rw [Node.walkAll, walks]
    show List.Sublist (node.head.id :: idsOf nodes) (node.head.id :: idsOf (below ++ Node.walkAll nodes))
    apply List.Sublist.cons_cons
    rw [idsOf, idsOf, List.map_append]
    exact ih.trans (List.sublist_append_right _ _)

/-- A node's run accounts for what it keeps, and has the node's id. -/
structure Resolves (s : Services) (seed : Memo) (id : String) (data : RunData) (out : RunNode × RunData) : Prop where
  accounts : Accounts s seed data out.2 out.1.runs
  named : out.1.id = id

theorem replacing_resolves (sound : Sound s seed run) (page : Page) (head : Head) (params : Params) (loaders : Loaders)
    {otherwise : RunData → RunNode × RunData} (own : Resolves s seed head.id data (otherwise data)) :
    Resolves s seed head.id data (replacing s run page head params loaders otherwise data) := by
  unfold replacing
  cases head.replaceable.bind fun target => s.replacement target params with
  | none => exact own
  | some standIn =>
    have accounts := (runEmbedded_accounts sound page standIn.page standIn.page [] params loaders data).1
    dsimp only
    generalize runEmbedded s run page standIn.page standIn.page [] params loaders data = out at accounts ⊢
    obtain ⟨⟨id, children, embed, error, replacedBy⟩, next⟩ := out
    exact ⟨accounts, rfl⟩

section
variable {run : Running} (page : Page) (params : Params) (loaders : Loaders)

mutual
theorem resolve_resolves (sound : Sound s seed run) : (node : Node) → (idsOf node.walk).Nodup → (data : RunData) →
    Resolves s seed node.head.id data (resolve s run page params loaders node data)
  | .layout head grid children, distinct, data => by
    rw [resolve]
    apply replacing_resolves sound
    obtain ⟨accounts, named⟩ := resolveAll_accounts sound children distinct.of_cons data
    generalize resolveAll s run page params loaders children data = out at accounts named ⊢
    obtain ⟨parts, next⟩ := out
    have ids : (parts.resolved.map RunNode.id).Nodup := by
      rw [named]
      exact distinct.of_cons.sublist (heads_sublist children)
    exact ⟨children_accounts ids accounts, rfl⟩
  | .switch head param children, distinct, data => by
    rw [resolve]
    apply replacing_resolves sound
    have accounts := resolveAt_accounts sound children distinct.of_cons (inViewAt param children params) data
    generalize resolveAt s run page params loaders (inViewAt param children params) children data = out at accounts ⊢
    obtain ⟨nodes, next⟩ := out
    exact ⟨accounts, rfl⟩
  | .embed head target given, distinct, data => by
    rw [resolve]
    apply replacing_resolves sound
    obtain ⟨accounts, named⟩ := runEmbedded_accounts sound page head.id target given params loaders data
    exact ⟨accounts, named⟩
  | .slot head name, distinct, data => by
    rw [resolve]
    apply replacing_resolves sound
    have accounts := runMounts_accounts sound page params loaders (s.mounts page.id name) data
    generalize runMounts s run page params loaders (s.mounts page.id name) data = out at accounts ⊢
    obtain ⟨mounted, next⟩ := out
    exact ⟨accounts, rfl⟩
  | .viz head rows, distinct, data => by
    rw [resolve]
    apply replacing_resolves sound
    exact ⟨.nothing data, rfl⟩
  | .fixed head, distinct, data => by
    rw [resolve]
    apply replacing_resolves sound
    exact ⟨.nothing data, rfl⟩

theorem resolveAll_accounts (sound : Sound s seed run) :
    (nodes : List Node) → (idsOf (Node.walkAll nodes)).Nodup → (data : RunData) →
    Accounts s seed data (resolveAll s run page params loaders nodes data).2
      (RunNode.runsAll (allParts (resolveAll s run page params loaders nodes data).1)) ∧
      (resolveAll s run page params loaders nodes data).1.resolved.map RunNode.id = idsOf nodes
  | [], _, data => by
    rw [resolveAll]
    exact ⟨.nothing data, rfl⟩
  | node :: nodes, distinct, data => by
    rw [resolveAll]
    rw [Node.walkAll, idsOf, List.map_append] at distinct
    have own : (idsOf node.walk).Nodup := distinct.of_append_left
    have rest : (idsOf (Node.walkAll nodes)).Nodup := distinct.of_append_right
    cases slot : node.slotName with
    | some name =>
      have first := runMounts_accounts sound page params loaders (s.mounts page.id name) data
      dsimp only
      generalize runMounts s run page params loaders (s.mounts page.id name) data = out at first ⊢
      obtain ⟨mounted, middle⟩ := out
      obtain ⟨second, named⟩ := resolveAll_accounts sound nodes rest middle
      exact ⟨slot_accounts node.head.id first second, congrArg (node.head.id :: ·) named⟩
    | none =>
      have first := resolve_resolves sound node own data
      dsimp only
      generalize resolve s run page params loaders node data = out at first ⊢
      obtain ⟨resolved, middle⟩ := out
      obtain ⟨second, named⟩ := resolveAll_accounts sound nodes rest middle
      refine ⟨?_, ?_⟩
      · apply (first.accounts.append second).part
        · simp only [keptBytes_append, keptBytes_runsAll, allParts, Parts.node, nodesBytes_append, nodesBytes_cons]
          omega
        · intro ran member
          obtain ⟨child, part, inside⟩ := mem_runsAll.mp member
          rw [List.mem_append, mem_runsAll]
          simp only [allParts, Parts.node, List.mem_append, List.mem_cons] at part ⊢
          rcases part with part | part | part | rfl | part
          · exact .inr ⟨child, .inl part, inside⟩
          · exact .inr ⟨child, .inr (.inl part), inside⟩
          · exact .inr ⟨child, .inr (.inr (.inl part)), inside⟩
          · exact .inl inside
          · exact .inr ⟨child, .inr (.inr (.inr part)), inside⟩
      · exact List.cons_eq_cons.mpr ⟨first.named, named⟩

theorem resolveAt_accounts (sound : Sound s seed run) :
    (nodes : List Node) → (idsOf (Node.walkAll nodes)).Nodup → (n : Nat) → (data : RunData) →
    Accounts s seed data (resolveAt s run page params loaders n nodes data).2
      (RunNode.runsAll (resolveAt s run page params loaders n nodes data).1)
  | [], _, n, data => by
    rw [resolveAt]
    exact .nothing data
  | node :: nodes, distinct, n, data => by
    rw [Node.walkAll, idsOf, List.map_append] at distinct
    cases n with
    | zero =>
      rw [resolveAt]
      have first := (resolve_resolves sound node distinct.of_append_left data).accounts
      generalize resolve s run page params loaders node data = out at first ⊢
      obtain ⟨resolved, next⟩ := out
      simpa only [RunNode.runsAll, List.append_nil] using first
    | succ n =>
      rw [resolveAt]
      exact resolveAt_accounts sound nodes distinct.of_append_right n data
end

end

/-! ### A page -/

theorem runLevel_sound (sound : Sound s seed run) (page : Page) (params : Params) (skipped : List String) (data : RunData) :
    (∀ out, (runLevel s run page params skipped data).1 = .ok out →
      Accounts s seed data (runLevel s run page params skipped data).2 out.runs ∧ out.page.loaders = page.loaders) ∧
      Accounts s seed data (RunData.since (runLevel s run page params skipped data).2 data.budget.remaining) [] := by
  obtain ⟨⟨underflow, memo⟩, admits⟩ := runLoaders_accounts sound page params skipped (fun decl member => member) [] data
  unfold runLevel
  generalize runLoaders s run page params skipped page.loaders [] data = out at underflow memo admits ⊢
  obtain ⟨out, first⟩ := out
  cases out with
  | error e =>
    refine ⟨?_, ⟨underflow, Nat.le_of_eq (Nat.zero_add _)⟩, memo, fun _ _ member => absurd member List.not_mem_nil⟩
    intro out same
    cases same
  | ok loaders =>
    obtain ⟨bytes, keeps⟩ := admits loaders rfl
    have distinct := page.nodeIds
    rw [List.map_append] at distinct
    have tree := (resolve_resolves page params loaders sound page.view distinct.of_append_left first).accounts
    dsimp only at underflow memo bytes keeps ⊢
    generalize resolve s run page params loaders page.view first = out at tree ⊢
    obtain ⟨tree_, second⟩ := out
    have rail : Accounts s seed second (resolveRail s run page params loaders page.rail second).2
        (railRuns (resolveRail s run page params loaders page.rail second).1) := by
      cases rail : page.rail with
      | none => exact .nothing second
      | some node =>
        rw [rail] at distinct
        exact (resolve_resolves page params loaders sound node distinct.of_append_right second).accounts
    generalize resolveRail s run page params loaders page.rail second = out at rail ⊢
    obtain ⟨rail_, third⟩ := out
    dsimp only at tree rail ⊢
    have both := tree.append rail
    have covers := both.spends.covers
    have whole : ∀ ran : PageRun, ran.loaders = loaders → ran.page.loaders = page.loaders → ran.params = params → ran.tree = tree_ →
        ran.rail = rail_ → Accounts s seed data third ran.runs := by
      intro ran own declared given trees rails
      rw [runs_eq, trees, rails]
      refine ⟨⟨both.spends.underflow.trans underflow, ?_⟩, fun start => both.memo (memo start), ?_⟩
      · have none_ : loadersBytes s [] = 0 := rfl
        rw [keptBytes_cons, own]
        omega
      · intro start part member
        rcases List.mem_cons.mp member with rfl | member
        · rw [own, given]
          intro entry inside
          rw [declared]
          exact keeps start (fun entry member => absurd member List.not_mem_nil) entry inside
        · exact both.kept (memo start) part member
    refine ⟨?_, ⟨both.spends.underflow.trans underflow, Nat.le_of_eq (Nat.zero_add _)⟩, fun start => both.memo (memo start),
      fun _ _ member => absurd member List.not_mem_nil⟩
    intro out same
    obtain rfl := Except.ok.inj same
    exact ⟨whole _ rfl rfl rfl rfl rfl, rfl⟩

theorem nothing_sound : Accounts s seed data (RunData.since data data.budget.remaining) [] := .nothing data

theorem runPage_sound (levels : Nat) : Sound s seed (runPage s levels) := by
  induction levels with
  | zero => exact ⟨fun same => (nomatch same), fun page supplied data => nothing_sound⟩
  | succ levels ih =>
    constructor
    · intro page supplied data out
      unfold runPage
      cases s.resolveParams page supplied with
      | error e =>
        intro same
        cases same
      | ok params =>
        dsimp only
        split
        · exact (runLevel_sound ih page params _ data).1 out
        · intro same
          obtain rfl := Except.ok.inj same
          refine ⟨⟨⟨rfl, Nat.le_of_eq (Nat.zero_add _)⟩, id, ?_⟩, rfl⟩
          intro memo ran member
          obtain rfl := List.mem_singleton.mp member
          exact fun entry inside => absurd inside List.not_mem_nil
    · intro page supplied data
      unfold runPage
      cases s.resolveParams page supplied with
      | error e => exact nothing_sound
      | ok params =>
        dsimp only
        split
        · exact (runLevel_sound ih page params _ data).2
        · exact nothing_sound

end

theorem seed_keeps (s : Services) (seed : Memo) : MemoKeeps s seed seed := fun _ run held => ⟨run.result, .inl (.seeded held), .refl _⟩

/-- All that a run keeps, at every level, is of loaders that its page declares. -/
theorem runSeeded_keeps {s : Services} {page : Page} {supplied : Params} {seed : Memo} {run : PageRun}
    (ran : (runSeeded s page supplied seed).1 = .ok run) :
    ∀ part ∈ run.runs, KeepsAll s seed part.page part.params part.loaders :=
  ((runPage_sound (maxDepth + 1)).keeps ran).1.kept (seed_keeps s seed)

/-- A run of a page, with all in it, stays in its budget. No subtraction from the budget goes below zero, all that is kept
takes at most the budget, and each kept result is a part of what its loader gave that says so when it is not the whole. -/
theorem run_in_budget (s : Services) (page : Page) (supplied : Params) (seed : Memo) :
    (runSeeded s page supplied seed).2.budget.underflow = false ∧
      ∀ run, (runSeeded s page supplied seed).1 = .ok run →
        keptBytes s run.runs ≤ maxResultBytes ∧ ∀ part ∈ run.runs, KeepsAll s seed part.page part.params part.loaders := by
  have sound : Sound s seed (runPage s (maxDepth + 1)) := runPage_sound _
  refine ⟨(sound.fails page supplied ⟨seed, ⟨maxResultBytes, false⟩⟩).spends.underflow, ?_⟩
  intro run ran
  have covers : keptBytes s run.runs + (runSeeded s page supplied seed).2.budget.remaining ≤ maxResultBytes :=
    (sound.keeps ran).1.spends.covers
  exact ⟨by omega, runSeeded_keeps ran⟩

end Oxplow.Proofs.RunBudgets
