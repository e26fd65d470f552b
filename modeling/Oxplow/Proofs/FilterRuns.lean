import Oxplow.Watch.FilterCaches

/-! The caches of a filter follow its lists and files, as long as no judgment holds something old
when a change begins to trust them again. -/

namespace Oxplow.Proofs.FilterRuns
open Library Watch

/-! ## Chains -/

section
variable (w : WorkspaceFilter)

/-- A directory's own rules after those above it. -/
def extend (above : List Gitignore) (dir : Dir) : List Gitignore :=
  if dir.getLast? = some ".git" || (gitignoreDecision above dir true).isIgnore then above else above ++ w.rulesOf dir

theorem chainFrom_snoc (names : List String) (name : String) (above : List Gitignore) (dir : Dir) :
    w.chainFrom above dir (names ++ [name]) = extend w (w.chainFrom above dir names) (dir ++ (names ++ [name])) := by
  induction names generalizing above dir with
  | nil => simp [WorkspaceFilter.chainFrom, extend]
  | cons first names ih =>
    simp only [List.cons_append, WorkspaceFilter.chainFrom]
    split
    · rw [ih]
      simp
    · rw [ih]
      simp

theorem chainOf_below {dir : Dir} (below : dir ≠ []) : w.chainOf dir = extend w (w.chainOf dir.dropLast) dir := by
  obtain ⟨names, name, rfl⟩ := List.eq_nil_or_concat dir |>.resolve_left below
  rw [List.concat_eq_append, List.dropLast_concat]
  exact chainFrom_snoc w names name _ []

/-- The callers of a `chain_of` are each the parent of the next, up to the directory asked for. -/
def Towards (asked : Dir) : Dir → List Dir → Prop
  | dir, [] => dir = asked
  | dir, below :: callers => below ≠ [] ∧ below.dropLast = dir ∧ Towards asked below callers

def place : Chaining → Dir × List Dir
  | .look dir callers => (dir, callers)
  | .rules dir _ callers => (dir, callers)
  | .file dir _ _ callers => (dir, callers)
  | .keepRules dir _ _ callers => (dir, callers)
  | .keepChain dir _ callers => (dir, callers)

/-- The rules of `dir` that are held are those of its files. -/
def RulesRead (files : Dir → List (Option Patterns)) (dir : Dir) : Chaining → Prop
  | .file at_ read _ _ => at_ = dir → read <+: files dir
  | .keepRules at_ patterns _ _ => at_ = dir → patterns = rulesFrom dir (files dir)
  | _ => True

/-- The chain that is held is a new filter's. -/
def ChainMade : Chaining → Prop
  | .look _ _ => True
  | .rules dir above _ => above ++ w.rulesOf dir = w.chainOf dir
  | .file dir _ above _ => above ++ w.rulesOf dir = w.chainOf dir
  | .keepRules dir _ above _ => above ++ w.rulesOf dir = w.chainOf dir
  | .keepChain dir chain _ => chain = w.chainOf dir

/-! ## Judgments -/

def verdict (task : Task) : Bool := w.decide task.at_ task.isDir task.watching

def asked (task : Task) (asks : Asks) : Bool := asks.of (w.gitDecision task.at_ task.isDir)

/-- The verdict on a path with these directories still to look up. -/
def passes (rest : List Dir) (path : Dir) (isDir : Bool) : Bool :=
  if rest.any (w.ignore · true) then true else w.ignore path isDir

/-- How a judgment answers once its task is decided. -/
def goesOn : Task → Bool → Bool
  | .ofPath _ _ _, ignored => ignored
  | .ofDir _ rest path isDir, ignored => ignored || passes w rest path isDir

/-- How a judgment answers if all that it still looks up is a new filter's. -/
def heads : Judging → Bool
  | .includes path isDir => w.ignoreChange path isDir
  | .lookDir dir rest path isDir => passes w (dir :: rest) path isDir
  | .entries task => goesOn w task (verdict w task)
  | .chaining task asks _ => goesOn w task (asked w task asks)
  | .keepDir _ ignored rest path isDir => ignored || passes w rest path isDir

def headsFor : Judging ⊕ Bool → Bool
  | .inl judging => heads w judging
  | .inr answer => answer

def Formed : Judging → Prop
  | .entries task => WorkspaceFilter.special task.at_ = none
  | .chaining task _ at_ => Towards task.at_.dropLast (place at_).1 (place at_).2
  | _ => True

def RulesRight (files : Dir → List (Option Patterns)) (dir : Dir) : Judging → Prop
  | .chaining _ _ at_ => RulesRead files dir at_
  | _ => True

def ChainsRight : Judging → Prop
  | .chaining _ _ at_ => ChainMade w at_
  | _ => True

/-- What `dir_ignored` is about to keep. -/
def DirRight : Judging → Prop
  | .chaining (.ofDir dir rest path isDir) asks _ => asked w (.ofDir dir rest path isDir) asks = w.ignore dir true
  | .keepDir dir ignored _ _ _ => ignored = w.ignore dir true
  | _ => True

end

/-! ## What may be old -/

section
variable (oldRules : Dir → Prop) (oldChains oldDirs : Prop)

/-- What a cache has is a new filter's, where it may not be old. -/
structure Fit (s : Shared) : Prop where
  rules : ∀ dir patterns, s.rules.get dir = some patterns → oldRules dir ∨ patterns = rulesFrom dir (s.files dir)
  chains : ∀ dir chain, s.chains.get dir = some chain → oldChains ∨ chain = s.present.chainOf dir
  dirs : ∀ dir ignored, s.dirs.get dir = some ignored → oldDirs ∨ ignored = s.present.ignore dir true

/-- So is what a judgment holds. -/
structure Held (files : Dir → List (Option Patterns)) (w : WorkspaceFilter) (j : Judging) : Prop where
  formed : Formed j
  rules : ∀ dir, oldRules dir ∨ RulesRight files dir j
  chains : oldChains ∨ ChainsRight w j
  dirs : oldDirs ∨ DirRight w j

def HeldFor (files : Dir → List (Option Patterns)) (w : WorkspaceFilter) : Judging ⊕ Bool → Prop
  | .inl j => Held oldRules oldChains oldDirs files w j
  | .inr _ => True

end

/-! ## What a task comes to -/

/-- What `decide` makes of a task: it decides it, or asks git's rules, or looks at the lists. -/
inductive Goes (w : WorkspaceFilter) (task : Task) : Judging ⊕ Bool → Prop
  | finish {ignored : Bool} (right : ignored = verdict w task) : Goes w task (task.finish ignored)
  | chain {asks : Asks} (right : asked w task asks = verdict w task) : Goes w task (task.chain asks)
  | entries (unspecial : WorkspaceFilter.special task.at_ = none) : Goes w task (.inl (.entries task))

theorem decide_goes (w : WorkspaceFilter) (task : Task) : Goes w task task.decide := by
  unfold Task.decide
  cases found : WorkspaceFilter.special task.at_ with
  | none => exact .entries found
  | some special =>
    cases special with
    | ignored => exact .finish (by simp [verdict, WorkspaceFilter.decide, found])
    | oxplow next =>
      cases next with
      | none => exact .finish (by simp [verdict, WorkspaceFilter.decide, found])
      | some next =>
        simp only
        split
        next wiki => exact .finish (by simp [verdict, WorkspaceFilter.decide, found, wiki])
        next wiki =>
          split
          next extensions =>
            subst extensions
            split
            next watching => exact .finish (by simp [verdict, WorkspaceFilter.decide, found, watching])
            next unwatched =>
              exact .chain (by simp [verdict, WorkspaceFilter.decide, found, unwatched, asked, Asks.of])
          next other =>
            split
            next isDir => exact .finish (by simp [verdict, WorkspaceFilter.decide, found, wiki, other, isDir])
            next file => exact .chain (by simp [verdict, WorkspaceFilter.decide, found, wiki, other, file, asked, Asks.of])

variable {task : Task}

/-- What `decide` makes of the lists. -/
theorem entries_goes (w : WorkspaceFilter) (unspecial : WorkspaceFilter.special task.at_ = none) :
    Goes w task (if matchesFilterEntries w.includes task.at_ then task.finish false
      else if matchesFilterEntries w.excludes task.at_ then task.finish true
      else if task.at_.isEmpty then task.finish false
      else task.chain .ignored) := by
  have rules : verdict w task = w.decideRules task.at_ task.isDir := by simp [verdict, WorkspaceFilter.decide, unspecial]
  split
  next included => exact .finish (by simp [rules, WorkspaceFilter.decideRules, included])
  next unincluded =>
    split
    next excluded => exact .finish (by simp [rules, WorkspaceFilter.decideRules, unincluded, excluded])
    next unexcluded =>
      split
      next root => exact .finish (by simp [rules, WorkspaceFilter.decideRules, unincluded, unexcluded, root])
      next below =>
        exact .chain (by simp [rules, WorkspaceFilter.decideRules, unincluded, unexcluded, below, asked, Asks.of])

section
variable {w : WorkspaceFilter}

theorem heads_finish (task : Task) (ignored : Bool) : headsFor w (task.finish ignored) = goesOn w task ignored := by
  cases task with
  | ofPath path isDir watching => rfl
  | ofDir dir rest path isDir => rfl

theorem goes_heads {out : Judging ⊕ Bool} (goes : Goes w task out) : headsFor w out = goesOn w task (verdict w task) := by
  cases goes with
  | finish right => rw [heads_finish, right]
  | chain right =>
    show goesOn w task (asked w task _) = _
    rw [right]
  | entries _ => rfl

theorem heads_dirsNext (path : Dir) (isDir : Bool) (rest : List Dir) :
    headsFor w (dirsNext path isDir rest) = passes w rest path isDir := by
  cases rest with
  | nil => exact goes_heads (decide_goes w (.ofPath path isDir true))
  | cons dir rest => rfl

theorem heads_dirAnswered (ignored : Bool) (rest : List Dir) (path : Dir) (isDir : Bool) :
    headsFor w (dirAnswered ignored rest path isDir) = (ignored || passes w rest path isDir) := by
  cases ignored with
  | true => rfl
  | false => exact (heads_dirsNext path isDir rest).trans (Bool.false_or _).symm

/-- A judgment heads from its beginning for what a new filter says. -/
theorem heads_judging (call : Call) : headsFor w call.judging = w.decision call := by
  cases call with
  | change path isDir => rfl
  | ignore path isDir => exact goes_heads (decide_goes w (.ofPath path isDir true))
  | inTrees path isDir => exact goes_heads (decide_goes w (.ofPath path isDir false))

theorem heads_lookDir (dir : Dir) (rest : List Dir) (path : Dir) (isDir : Bool) :
    heads w (.lookDir dir rest path isDir) = (w.ignore dir true || passes w rest path isDir) := by
  unfold heads passes
  cases ignored : w.ignore dir true with
  | true => simp [ignored]
  | false => simp [ignored]

end

/-! ## One step -/

/-- The lists and the files are as before. -/
structure Kept (s next : Shared) : Prop where
  files : next.files = s.files
  present : next.present = s.present

section
variable {oldRules : Dir → Prop} {oldChains oldDirs : Prop} {files : Dir → List (Option Patterns)} {w : WorkspaceFilter}

theorem held_idle {j : Judging} (formed : Formed j) (rules : ∀ dir, RulesRight files dir j) (chains : ChainsRight w j)
    (dirs : oldDirs ∨ DirRight w j) : Held oldRules oldChains oldDirs files w j :=
  ⟨formed, fun dir => .inr (rules dir), .inr chains, dirs⟩

/-- An answer that `dir_ignored` keeps is a new filter's. -/
def AnswerRight (w : WorkspaceFilter) : Task → Bool → Prop
  | .ofPath _ _ _, _ => True
  | .ofDir dir _ _ _, ignored => ignored = w.ignore dir true

theorem answerRight_verdict (task : Task) : AnswerRight w task (verdict w task) := by
  cases task with
  | ofPath path isDir watching => trivial
  | ofDir dir rest path isDir => rfl

theorem held_finish {ignored : Bool} (right : oldDirs ∨ AnswerRight w task ignored) :
    HeldFor oldRules oldChains oldDirs files w (task.finish ignored) := by
  cases task with
  | ofPath path isDir watching => trivial
  | ofDir dir rest path isDir => exact held_idle trivial (fun _ => trivial) trivial right

variable {asks : Asks}

theorem held_chain (right : asked w task asks = verdict w task) :
    HeldFor oldRules oldChains oldDirs files w (task.chain asks) := by
  refine held_idle rfl (fun _ => trivial) trivial (.inr ?_)
  cases task with
  | ofPath path isDir watching => trivial
  | ofDir dir rest path isDir => exact right

theorem goes_held {out : Judging ⊕ Bool} (goes : Goes w task out) : HeldFor oldRules oldChains oldDirs files w out := by
  cases goes with
  | finish right =>
    subst right
    exact held_finish (.inr (answerRight_verdict task))
  | chain right => exact held_chain right
  | entries unspecial => exact held_idle unspecial (fun _ => trivial) trivial (.inr trivial)

theorem held_dirsNext (path : Dir) (isDir : Bool) (rest : List Dir) :
    HeldFor oldRules oldChains oldDirs files w (dirsNext path isDir rest) := by
  cases rest with
  | nil => exact goes_held (decide_goes w (.ofPath path isDir true))
  | cons dir rest => exact held_idle trivial (fun _ => trivial) trivial (.inr trivial)

theorem held_dirAnswered (ignored : Bool) (rest : List Dir) (path : Dir) (isDir : Bool) :
    HeldFor oldRules oldChains oldDirs files w (dirAnswered ignored rest path isDir) := by
  cases ignored with
  | true => trivial
  | false => exact held_dirsNext path isDir rest

theorem held_judging (call : Call) : HeldFor oldRules oldChains oldDirs files w call.judging := by
  cases call with
  | change path isDir => exact held_idle trivial (fun _ => trivial) trivial (.inr trivial)
  | ignore path isDir => exact goes_held (decide_goes w (.ofPath path isDir true))
  | inTrees path isDir => exact goes_held (decide_goes w (.ofPath path isDir false))

/-! ### `chain_of` -/

/-- What `chain_of` holds and where it goes, on the way to the chain of a directory. -/
structure Climbs (oldRules : Dir → Prop) (oldChains : Prop) (files : Dir → List (Option Patterns)) (w : WorkspaceFilter)
    (asked : Dir) (at_ : Chaining) : Prop where
  towards : Towards asked (place at_).1 (place at_).2
  rules : ∀ dir, oldRules dir ∨ RulesRead files dir at_
  chain : oldChains ∨ ChainMade w at_

def ClimbsFor (oldRules : Dir → Prop) (oldChains : Prop) (files : Dir → List (Option Patterns)) (w : WorkspaceFilter) (asked : Dir) :
    Chaining ⊕ List Gitignore → Prop
  | .inl at_ => Climbs oldRules oldChains files w asked at_
  | .inr chain => oldChains ∨ chain = w.chainOf asked

variable {dir : Dir}

theorem return_climbs {target : Dir} {callers : List Dir} {chain : List Gitignore} (towards : Towards target dir callers)
    (right : oldChains ∨ chain = w.chainOf dir) : ClimbsFor oldRules oldChains files w target (return_ chain callers) := by
  cases callers with
  | nil =>
    obtain rfl : dir = target := towards
    exact right
  | cons below callers =>
    obtain ⟨nonempty, rfl, rest⟩ := towards
    have made := chainOf_below w nonempty
    simp only [extend] at made
    simp only [return_]
    split
    next stops =>
      refine ⟨rest, fun _ => .inr trivial, ?_⟩
      apply right.imp_right
      rintro rfl
      show _ = _
      rw [made, if_pos stops]
    next goes =>
      refine ⟨rest, fun _ => .inr trivial, ?_⟩
      apply right.imp_right
      rintro rfl
      show _ = _
      rw [made, if_neg goes]

variable {s : Shared}

/-- A directory's chain from that above it and its rules. -/
theorem chain_made {above : List Gitignore} {patterns : Option Patterns}
    (above_ : above ++ s.present.rulesOf dir = s.present.chainOf dir) (read : patterns = rulesFrom dir (s.files dir)) :
    above ++ rulesIn dir patterns = s.present.chainOf dir := by
  rw [← above_, read]
  rfl

theorem fit_insert_rules (fit : Fit oldRules oldChains oldDirs s) {patterns : Option Patterns}
    (right : oldRules dir ∨ patterns = rulesFrom dir (s.files dir)) :
    Fit oldRules oldChains oldDirs { s with rules := s.rules.insert dir patterns } := by
  refine ⟨?_, fit.chains, fit.dirs⟩
  intro other kept found
  rw [Table.get_insert] at found
  split at found
  next same =>
    cases found
    subst same
    exact right
  next other_ => exact fit.rules other kept found

theorem remember_get {ρ : Type} {cache : Table Dir ρ} {other : Dir} {row kept : ρ}
    (found : (remember cache dir row).get other = some kept) : other = dir ∧ kept = row ∨ cache.get other = some kept := by
  unfold remember at found
  split at found
  next full =>
    rw [Table.get_insert] at found
    split at found
    next same => exact .inl ⟨same, (Option.some.inj found).symm⟩
    next differs => cases found
  next room =>
    rw [Table.get_insert] at found
    split at found
    next same => exact .inl ⟨same, (Option.some.inj found).symm⟩
    next differs => exact .inr found

theorem fit_remember_chain (fit : Fit oldRules oldChains oldDirs s) {chain : List Gitignore}
    (right : oldChains ∨ chain = s.present.chainOf dir) :
    Fit oldRules oldChains oldDirs { s with chains := remember s.chains dir chain } := by
  refine ⟨fit.rules, ?_, fit.dirs⟩
  intro other kept found
  rcases remember_get found with ⟨rfl, rfl⟩ | before
  · exact right
  · exact fit.chains other kept before

theorem fit_remember_dir (fit : Fit oldRules oldChains oldDirs s) {ignored : Bool}
    (right : oldDirs ∨ ignored = s.present.ignore dir true) :
    Fit oldRules oldChains oldDirs { s with dirs := remember s.dirs dir ignored } := by
  refine ⟨fit.rules, fit.chains, ?_⟩
  intro other kept found
  rcases remember_get found with ⟨rfl, rfl⟩ | before
  · exact right
  · exact fit.dirs other kept before

variable {at_ : Chaining}

/-- A step of `chain_of` keeps the caches right and goes on towards its chain. -/
theorem climb_step (fit : Fit oldRules oldChains oldDirs s) (spreads : ∀ dir, oldRules dir → oldChains) {target : Dir}
    (climbs : Climbs oldRules oldChains s.files s.present target at_) :
    Fit oldRules oldChains oldDirs (at_.step s).1 ∧ Kept s (at_.step s).1 ∧
      ClimbsFor oldRules oldChains s.files s.present target (at_.step s).2 := by
  obtain ⟨towards, rules, chain⟩ := climbs
  cases at_ with
  | look dir callers =>
    cases found : s.chains.get dir with
    | some held =>
      simp only [Chaining.step, found]
      exact ⟨fit, ⟨rfl, rfl⟩, return_climbs towards (fit.chains dir held found)⟩
    | none =>
      simp only [Chaining.step, found]
      refine ⟨fit, ⟨rfl, rfl⟩, ?_⟩
      split
      next root =>
        obtain rfl := List.isEmpty_iff.mp root
        exact ⟨towards, fun _ => .inr trivial, .inr (List.nil_append _)⟩
      next below =>
        have nonempty : dir ≠ [] := fun root => below (List.isEmpty_iff.mpr root)
        exact ⟨⟨nonempty, rfl, towards⟩, fun _ => .inr trivial, .inr trivial⟩
  | rules dir above callers =>
    cases found : s.rules.get dir with
    | some patterns =>
      simp only [Chaining.step, found]
      refine ⟨fit, ⟨rfl, rfl⟩, towards, fun _ => .inr trivial, ?_⟩
      rcases fit.rules dir patterns found with old | read
      · exact .inl (spreads dir old)
      · exact chain.imp_right fun above_ => chain_made above_ read
    | none =>
      simp only [Chaining.step, found]
      refine ⟨fit, ⟨rfl, rfl⟩, towards, ?_, chain⟩
      intro other
      exact .inr fun _ => List.nil_prefix
  | file dir read above callers =>
    cases next : (s.files dir)[read.length]? with
    | some patterns =>
      simp only [Chaining.step, next]
      refine ⟨fit, ⟨rfl, rfl⟩, towards, ?_, chain⟩
      intro other
      apply (rules other).imp_right
      rintro start rfl
      obtain ⟨rest, whole⟩ := start rfl
      rw [← whole] at next ⊢
      rw [List.getElem?_append_right (Nat.le_refl _), Nat.sub_self] at next
      obtain ⟨first, rest, rfl⟩ := List.exists_cons_of_ne_nil (fun empty => by simp [empty] at next : rest ≠ [])
      obtain rfl : first = patterns := by simpa using next
      exact ⟨rest, by simp⟩
    | none =>
      simp only [Chaining.step, next]
      refine ⟨fit, ⟨rfl, rfl⟩, towards, ?_, chain⟩
      intro other
      apply (rules other).imp_right
      rintro start rfl
      have read_ : read = s.files dir := (start rfl).eq_of_length_le (List.getElem?_eq_none_iff.mp next)
      rw [read_]
  | keepRules dir patterns above callers =>
    refine ⟨fit_insert_rules fit ((rules dir).imp_right fun read => read rfl), ⟨rfl, rfl⟩, towards, fun _ => .inr trivial, ?_⟩
    rcases rules dir with old | read
    · exact .inl (spreads dir old)
    · exact chain.imp_right fun above_ => chain_made above_ (read rfl)
  | keepChain dir made callers => exact ⟨fit_remember_chain fit chain, ⟨rfl, rfl⟩, return_climbs towards chain⟩

/-! ### Judgments -/

/-- What a step of a judgment comes to. With nothing old it goes where it headed. -/
structure Steps (oldRules : Dir → Prop) (oldChains oldDirs : Prop) (s : Shared) (j : Judging) (next : Shared)
    (out : Judging ⊕ Bool) : Prop where
  fit : Fit oldRules oldChains oldDirs next
  kept : Kept s next
  held : HeldFor oldRules oldChains oldDirs s.files s.present out
  heads : ¬ oldDirs → headsFor s.present out = heads s.present j

theorem dirRight_at (further : Chaining) (right : DirRight w (.chaining task asks at_)) :
    DirRight w (.chaining task asks further) := by
  cases task with
  | ofPath path isDir watching => trivial
  | ofDir dir rest path isDir => exact right

theorem chaining_step (fit : Fit oldRules oldChains oldDirs s) (spreads : ∀ dir, oldRules dir → oldChains)
    (spreads' : oldChains → oldDirs) (held : Held oldRules oldChains oldDirs s.files s.present (.chaining task asks at_)) :
    Steps oldRules oldChains oldDirs s (.chaining task asks at_) (Judging.step s (.chaining task asks at_)).1
      (Judging.step s (.chaining task asks at_)).2 := by
  obtain ⟨fit', kept, climbs⟩ := climb_step fit spreads ⟨held.formed, held.rules, held.chains⟩
  simp only [Judging.step]
  cases next : (at_.step s).2 with
  | inl further =>
    rw [next] at climbs
    exact ⟨fit', kept, ⟨climbs.towards, climbs.rules, climbs.chain, held.dirs.imp_right (dirRight_at further)⟩, fun _ => rfl⟩
  | inr chain =>
    rw [next] at climbs
    have answered : oldChains ∨ asks.of (gitignoreDecision chain task.at_ task.isDir) = asked s.present task asks := by
      apply climbs.imp_right
      rintro rfl
      rfl
    refine ⟨fit', kept, held_finish ?_, ?_⟩
    · rcases answered with old | answered
      · exact .inl (spreads' old)
      · rw [answered]
        cases task with
        | ofPath path isDir watching => exact .inr trivial
        | ofDir dir rest path isDir => exact held.dirs
    · intro fresh
      have answered := answered.resolve_left fun old => fresh (spreads' old)
      refine (heads_finish task _).trans ?_
      rw [answered]
      rfl

theorem judging_step (fit : Fit oldRules oldChains oldDirs s) (spreads : ∀ dir, oldRules dir → oldChains)
    (spreads' : oldChains → oldDirs) {j : Judging} (held : Held oldRules oldChains oldDirs s.files s.present j) :
    Steps oldRules oldChains oldDirs s j (j.step s).1 (j.step s).2 := by
  cases j with
  | includes path isDir =>
    simp only [Judging.step]
    split
    next none_ =>
      refine ⟨fit, ⟨rfl, rfl⟩, held_dirsNext path isDir _, fun _ => ?_⟩
      rw [heads_dirsNext]
      have none_' : s.present.includes.isEmpty = true := none_
      simp [heads, passes, WorkspaceFilter.ignoreChange, none_']
    next some_ =>
      have goes := decide_goes s.present (.ofPath path isDir true)
      refine ⟨fit, ⟨rfl, rfl⟩, goes_held goes, fun _ => ?_⟩
      have some_' : ¬ s.present.includes.isEmpty = true := some_
      rw [goes_heads goes]
      simp [heads, goesOn, verdict, WorkspaceFilter.ignoreChange, some_', Task.at_, Task.isDir, Task.watching, WorkspaceFilter.ignore]
  | lookDir dir rest path isDir =>
    cases found : s.dirs.get dir with
    | some ignored =>
      simp only [Judging.step, found]
      refine ⟨fit, ⟨rfl, rfl⟩, held_dirAnswered ignored rest path isDir, ?_⟩
      intro fresh
      rw [heads_dirAnswered, heads_lookDir, (fit.dirs dir ignored found).resolve_left fresh]
    | none =>
      simp only [Judging.step, found]
      have goes := decide_goes s.present (.ofDir dir rest path isDir)
      refine ⟨fit, ⟨rfl, rfl⟩, goes_held goes, fun _ => ?_⟩
      rw [goes_heads goes, heads_lookDir]
      rfl
  | entries task =>
    have goes := entries_goes s.present held.formed
    exact ⟨fit, ⟨rfl, rfl⟩, goes_held goes, fun _ => goes_heads goes⟩
  | chaining task asks at_ => exact chaining_step fit spreads spreads' held
  | keepDir dir ignored rest path isDir =>
    refine ⟨fit_remember_dir fit held.dirs, ⟨rfl, rfl⟩, held_dirAnswered ignored rest path isDir, fun _ => ?_⟩
    exact heads_dirAnswered ignored rest path isDir

end

/-! ## Runs -/

/-- The chains are to be forgotten, by a call under way or one still to come. -/
def DueChains (s : Clones) : Prop := s.unnoted ≠ [] ∨ .chains ∈ s.clearing

def DueDirs (s : Clones) : Prop := s.unnoted ≠ [] ∨ s.clearing ≠ []

structure Follows (s : Clones) : Prop where
  fit : Fit (· ∈ s.unnoted) (DueChains s) (DueDirs s) s.shared
  held : ∀ j ∈ s.judgments, Held (· ∈ s.unnoted) (DueChains s) (DueDirs s) s.shared.files s.shared.present j.judging
  later : ∀ j ∈ s.judgments, j.later = true → ¬ DueDirs s ∧ heads s.shared.present j.judging = s.shared.present.decision j.call
  answers : ∀ a ∈ s.answers, a.later = true → a.answer = a.present.decision a.call

/-- Nothing old is held by a judgment when a change begins to trust it again: the rules of a directory
when its file is noted, the chains and the directories when the last call to forget them does. -/
def Clean (s : Clones) : ClonesEvent → Prop
  | .note file => ∀ j ∈ s.judgments, RulesRight s.shared.files file.dir j.judging
  | .forget => ∀ j ∈ s.judgments, ∀ dir, RulesRight s.shared.files dir j.judging
  | .clear call =>
    (s.clearing[call]? = some .chains → s.unnoted ≠ [] ∨ .chains ∈ s.clearing.set call .dirs ∨
      ∀ j ∈ s.judgments, ChainsRight s.shared.present j.judging) ∧
    (s.clearing[call]? = some .dirs → s.unnoted ≠ [] ∨ s.clearing.eraseIdx call ≠ [] ∨
      ∀ j ∈ s.judgments, DirRight s.shared.present j.judging)
  | _ => True

theorem start_follows (files : Dir → List (Option Patterns)) (excludes includes : List FilterEntry) :
    Follows (.start files excludes includes) := by
  refine ⟨⟨?_, ?_, ?_⟩, fun j member => absurd member List.not_mem_nil, fun j member => absurd member List.not_mem_nil,
    fun a member => absurd member List.not_mem_nil⟩
  · intro dir patterns found
    cases found
  · intro dir chain found
    cases found
  · intro dir ignored found
    cases found

theorem rulesRight_congr {files files' : Dir → List (Option Patterns)} {dir : Dir} (same : files' dir = files dir) {j : Judging}
    (right : RulesRight files dir j) : RulesRight files' dir j := by
  cases j with
  | chaining task asks at_ =>
    cases at_ with
    | file other read above callers =>
      intro at_
      rw [same]
      exact right at_
    | keepRules other patterns above callers =>
      intro at_
      rw [same]
      exact right at_
    | look dir callers => trivial
    | rules dir above callers => trivial
    | keepChain dir chain callers => trivial
  | includes path isDir => trivial
  | lookDir dir rest path isDir => trivial
  | entries task => trivial
  | keepDir dir ignored rest path isDir => trivial

variable {s : Clones}

/-- A judgment under way goes on, or one begins. -/
theorem follows_proceed (follows : Follows s) {shared : Shared} (fit : Fit (· ∈ s.unnoted) (DueChains s) (DueDirs s) shared)
    (kept : Kept s.shared shared) {before after : List Underway} (others : ∀ j ∈ before ++ after, j ∈ s.judgments) {call : Call}
    {later : Bool} {out : Judging ⊕ Bool}
    (held : HeldFor (· ∈ s.unnoted) (DueChains s) (DueDirs s) s.shared.files s.shared.present out)
    (heads : later = true → ¬ DueDirs s ∧ headsFor s.shared.present out = s.shared.present.decision call) :
    Follows (s.proceed shared before after call later out) := by
  obtain ⟨files, present⟩ := kept
  rw [← files, ← present] at held
  rw [← present] at heads
  have held_ : ∀ j ∈ before ++ after, Held (· ∈ s.unnoted) (DueChains s) (DueDirs s) shared.files shared.present j.judging := by
    intro j member
    rw [files, present]
    exact follows.held j (others j member)
  have later_ : ∀ j ∈ before ++ after, j.later = true →
      ¬ DueDirs s ∧ FilterRuns.heads shared.present j.judging = shared.present.decision j.call := by
    intro j member began
    rw [present]
    exact follows.later j (others j member) began
  cases out with
  | inl judging =>
    refine ⟨fit, ?_, ?_, follows.answers⟩
    · intro j member
      rcases List.mem_append.mp member with first | rest
      · exact held_ j (List.mem_append_left _ first)
      · rcases List.mem_cons.mp rest with rfl | last
        · exact held
        · exact held_ j (List.mem_append_right _ last)
    · intro j member began
      rcases List.mem_append.mp member with first | rest
      · exact later_ j (List.mem_append_left _ first) began
      · rcases List.mem_cons.mp rest with rfl | last
        · exact heads began
        · exact later_ j (List.mem_append_right _ last) began
  | inr answer =>
    refine ⟨fit, held_, later_, ?_⟩
    intro a member began
    rcases List.mem_append.mp member with before_ | last
    · exact follows.answers a before_ began
    · obtain rfl := List.mem_singleton.mp last
      exact (heads began).2

variable {next : Clones}

/-- After a change every chain and directory is to be forgotten, so only the rules are left to check. -/
theorem follows_change (follows : Follows s) (chains : DueChains next) (dirs : DueDirs next)
    (fit : ∀ dir patterns, next.shared.rules.get dir = some patterns →
      dir ∈ next.unnoted ∨ patterns = rulesFrom dir (next.shared.files dir))
    (held : ∀ j ∈ s.judgments, ∀ dir, dir ∈ next.unnoted ∨ RulesRight next.shared.files dir j.judging)
    (judgments : ∀ j ∈ next.judgments, j.later ≠ true ∧ ∃ before ∈ s.judgments, before.judging = j.judging)
    (answers : next.answers = s.answers) : Follows next := by
  refine ⟨⟨fit, fun _ _ _ => .inl chains, fun _ _ _ => .inl dirs⟩, ?_, ?_, ?_⟩
  · intro j member
    obtain ⟨_, before, inside, same⟩ := judgments j member
    rw [← same]
    exact ⟨(follows.held before inside).formed, held before inside, .inl chains, .inl dirs⟩
  · intro j member began
    exact absurd began (judgments j member).1
  · rw [answers]
    exact follows.answers

theorem outdated_judgments {judgments : List Underway} :
    ∀ j ∈ Clones.outdated judgments, j.later ≠ true ∧ ∃ before ∈ judgments, before.judging = j.judging := by
  intro j member
  obtain ⟨before, inside, rfl⟩ := List.mem_map.mp member
  exact ⟨Bool.false_ne_true, before, inside, rfl⟩

/-- While something is due no judgment is later than all changes. -/
theorem due_judgments (follows : Follows s) (due : DueDirs s) :
    ∀ j ∈ s.judgments, j.later ≠ true ∧ ∃ before ∈ s.judgments, before.judging = j.judging := by
  intro j member
  exact ⟨fun began => (follows.later j member began).1 due, j, member, rfl⟩

theorem edit_follows (follows : Follows s) (dir : Dir) (file : Nat) (patterns : Option Patterns) :
    Follows (Machine.advance Clones.step s (.edit dir file patterns)) := by
  have due : dir :: s.unnoted ≠ [] := List.cons_ne_nil _ _
  have other : ∀ at_, at_ ≠ dir →
      Function.update s.shared.files dir ((s.shared.files dir).set file patterns) at_ = s.shared.files at_ :=
    fun at_ differs => Function.update_of_ne differs _ _
  apply @follows_change s (Machine.advance Clones.step s (.edit dir file patterns)) follows (.inl due) (.inl due)
  · intro at_ kept found
    by_cases same : at_ = dir
    · exact .inl (List.mem_cons.mpr (.inl same))
    · rcases follows.fit.rules at_ kept found with old | right
      · exact .inl (List.mem_cons_of_mem _ old)
      · exact .inr (right.trans (congrArg (rulesFrom at_) (other at_ same).symm))
  · intro j member at_
    by_cases same : at_ = dir
    · exact .inl (List.mem_cons.mpr (.inl same))
    · rcases (follows.held j member).rules at_ with old | right
      · exact .inl (List.mem_cons_of_mem _ old)
      · exact .inr (rulesRight_congr (other at_ same) right)
  · exact outdated_judgments
  · rfl

variable {out : Unit}

theorem note_follows (follows : Follows s) {file : IgnoreFile} (clean : Clean s (.note file))
    (moves : s.step (.note file) = some (next, out)) : Follows next := by
  simp only [Clones.step, Option.ite_none_right_eq_some, Option.some.injEq, Prod.mk.injEq] at moves
  obtain ⟨noted, rfl, -⟩ := moves
  have kept : ∀ {dir}, dir ∈ s.unnoted → dir ≠ file.dir → dir ∈ s.unnoted.filter fun dir => dir ≠ file.dir := by
    intro dir old differs
    exact List.mem_filter.mpr ⟨old, decide_eq_true differs⟩
  have none_ := due_judgments follows (.inl (List.ne_nil_of_mem noted))
  apply follows_change follows (.inr (by simp)) (.inr (by simp))
  · intro dir patterns found
    rw [Table.get_delete] at found
    split at found
    next gone => cases found
    next other =>
      rcases follows.fit.rules dir patterns found with old | right
      · exact .inl (kept old (by simpa using other))
      · exact .inr right
  · intro j member dir
    by_cases same : dir = file.dir
    · subst same
      exact .inr (clean j member)
    · exact ((follows.held j member).rules dir).imp_left fun old => kept old same
  · exact none_
  · rfl

theorem forget_follows (follows : Follows s) (clean : Clean s .forget) : Follows (Machine.advance Clones.step s .forget) := by
  apply @follows_change s (Machine.advance Clones.step s .forget) follows
  · exact .inr (List.mem_append_right _ (List.mem_singleton.mpr rfl))
  · exact .inr (List.append_ne_nil_of_right_ne_nil _ (List.cons_ne_nil _ _))
  · intro dir patterns found
    cases found
  · intro j member dir
    exact .inr (clean j member dir)
  · exact outdated_judgments
  · rfl

theorem setEntries_follows (follows : Follows s) {excludes includes : List FilterEntry}
    (moves : s.step (.setEntries excludes includes) = some (next, out)) : Follows next := by
  simp only [Clones.step, Option.ite_none_left_eq_some, Option.some.injEq, Prod.mk.injEq] at moves
  obtain ⟨-, rfl, -⟩ := moves
  apply follows_change follows
  · exact .inr (List.mem_append_right _ (List.mem_singleton.mpr rfl))
  · exact .inr (List.append_ne_nil_of_right_ne_nil _ (List.cons_ne_nil _ _))
  · exact follows.fit.rules
  · intro j member dir
    exact (follows.held j member).rules dir
  · exact outdated_judgments
  · rfl

theorem clear_follows (follows : Follows s) {call : Nat} (clean : Clean s (.clear call))
    (moves : s.step (.clear call) = some (next, out)) : Follows next := by
  obtain ⟨cleanChains, cleanDirs⟩ := clean
  have fit := follows.fit
  cases found : s.clearing[call]? with
  | none => simp [Clones.step, found] at moves
  | some clearing =>
    have due : DueDirs s := .inr fun empty => by simp [empty] at found
    have none_ := due_judgments follows due
    cases clearing with
    | chains =>
      simp only [Clones.step, found, Option.some.injEq, Prod.mk.injEq] at moves
      obtain ⟨rfl, -⟩ := moves
      have stays : DueDirs { s with shared := { s.shared with chains := [] }, clearing := s.clearing.set call .dirs } := by
        apply due.imp_right
        intro some_ empty
        exact some_ (by simpa using empty)
      refine ⟨⟨fit.rules, nofun, fun _ _ _ => .inl stays⟩, ?_, ?_, follows.answers⟩
      · intro j member
        have held := follows.held j member
        refine ⟨held.formed, held.rules, ?_, .inl stays⟩
        rcases cleanChains found with unnoted | other | right
        · exact .inl (.inl unnoted)
        · exact .inl (.inr other)
        · exact .inr (right j member)
      · intro j member began
        exact absurd began (none_ j member).1
    | dirs =>
      simp only [Clones.step, found, Option.some.injEq, Prod.mk.injEq] at moves
      obtain ⟨rfl, -⟩ := moves
      have chains : DueChains s →
          DueChains { s with shared := { s.shared with dirs := [] }, clearing := s.clearing.eraseIdx call } := by
        apply Or.imp_right
        intro member
        obtain ⟨i, at_⟩ := List.mem_iff_getElem?.mp member
        refine List.mem_eraseIdx_iff_getElem?.mpr ⟨i, ?_, at_⟩
        rintro rfl
        rw [found] at at_
        cases at_
      refine ⟨⟨fit.rules, fun dir chain kept => (fit.chains dir chain kept).imp_left chains, nofun⟩, ?_, ?_, follows.answers⟩
      · intro j member
        have held := follows.held j member
        refine ⟨held.formed, held.rules, held.chains.imp_left chains, ?_⟩
        rcases cleanDirs found with unnoted | other | right
        · exact .inl (.inl unnoted)
        · exact .inl (.inr other)
        · exact .inr (right j member)
      · intro j member began
        exact absurd began (none_ j member).1

theorem begin_follows (follows : Follows s) (call : Call) : Follows (Machine.advance Clones.step s (.begin call)) := by
  refine follows_proceed follows follows.fit ⟨rfl, rfl⟩ ?_ (held_judging call) ?_
  · intro j member
    rwa [List.append_nil] at member
  · intro quiet
    refine ⟨?_, heads_judging call⟩
    rintro (unnoted | clearing)
    · simp [unnoted] at quiet
    · simp [clearing] at quiet

theorem step_follows (follows : Follows s) {judgment : Nat} (moves : s.step (.step judgment) = some (next, out)) :
    Follows next := by
  cases found : s.judgments[judgment]? with
  | none => simp [Clones.step, found] at moves
  | some j =>
    simp only [Clones.step, found, Option.some.injEq, Prod.mk.injEq] at moves
    obtain ⟨rfl, -⟩ := moves
    have member := List.mem_of_getElem? found
    have steps := judging_step follows.fit (fun dir old => .inl (List.ne_nil_of_mem old)) (Or.imp_right List.ne_nil_of_mem)
      (follows.held j member)
    refine follows_proceed follows steps.fit steps.kept ?_ steps.held ?_
    · intro other inside
      rcases List.mem_append.mp inside with first | last
      · exact List.mem_of_mem_take first
      · exact List.mem_of_mem_drop last
    · intro began
      obtain ⟨quiet, headed⟩ := follows.later j member began
      exact ⟨quiet, (steps.heads quiet).trans headed⟩

theorem event_follows (follows : Follows s) {event : ClonesEvent} (clean : Clean s event)
    (moves : s.step event = some (next, out)) : Follows next := by
  have moved := Machine.advance_of_some moves
  cases event with
  | edit dir file patterns =>
    rw [← moved]
    exact edit_follows follows dir file patterns
  | note file => exact note_follows follows clean moves
  | forget =>
    rw [← moved]
    exact forget_follows follows clean
  | setEntries excludes includes => exact setEntries_follows follows moves
  | clear call => exact clear_follows follows clean moves
  | begin call =>
    rw [← moved]
    exact begin_follows follows call
  | step judgment => exact step_follows follows moves

/-- Where nothing old is held when a change begins to trust it again, each decision begun once all was
noted, and after the last judgment from before, is that of a new filter with the present lists and files. -/
theorem later_decisions_fresh (files : Dir → List (Option Patterns)) (excludes includes : List FilterEntry) {events : List ClonesEvent}
    (clean : Machine.Admits Clones.step Clean (.start files excludes includes) events) :
    ∀ a ∈ (Machine.run Clones.step (.start files excludes includes) events).answers, a.later = true →
      a.answer = a.present.decision a.call := by
  have follows := Machine.run_allowed (fun _ _ => True) (fun _ => trivial) (fun _ _ => trivial) Follows
    (fun s event next out follows clean moves => ⟨event_follows follows clean moves, trivial⟩)
    (start_follows files excludes includes) clean
  exact follows.1.answers

/-! The root's `.gitignore` ignores one name, then another. -/

def ignoring (name : String) : Patterns := fun path _ => if path = [name] then .ignore else .none

def rooted (name : String) (dir : Dir) : List (Option Patterns) :=
  if dir.isEmpty then [none, none, some (ignoring name)] else [none]

/-- A judgment of `a` and so many of its steps. -/
def judged (steps : Nat) : List ClonesEvent := .begin (.ignore ["a"] false) :: List.replicate steps (.step 0)

def changed : List ClonesEvent := [.edit [] 2 (some (ignoring "b")), .note ⟨[".gitignore"], false⟩, .clear 0, .clear 0]

/-- A judgment from before the change that has read nothing yet. -/
theorem later_decisions_fresh_begun :
    Machine.Admits Clones.step Clean (.start (rooted "a") [] [])
        (judged 1 ++ changed ++ List.replicate 8 (.step 0) ++ judged 2) ∧
      ∀ a ∈ (Machine.run Clones.step (.start (rooted "a") [] [])
        (judged 1 ++ changed ++ List.replicate 8 (.step 0) ++ judged 2)).answers, a.later = true →
        a.answer = a.present.decision a.call := by
  have clean : Machine.Admits Clones.step Clean (.start (rooted "a") [] [])
      (judged 1 ++ changed ++ List.replicate 8 (.step 0) ++ judged 2) := by
    have judges : ∀ steps, ∀ event ∈ judged steps, ∀ s, Clean s event := by
      intro steps event member s
      rcases List.mem_cons.mp member with rfl | member
      · trivial
      · obtain rfl := List.eq_of_mem_replicate member
        trivial
    have goesOn : ∀ event ∈ List.replicate 8 (ClonesEvent.step 0), ∀ s, Clean s event := by
      intro event member s
      obtain rfl := List.eq_of_mem_replicate member
      trivial
    refine Machine.admits_append.mpr ⟨Machine.admits_append.mpr ⟨Machine.admits_append.mpr
      ⟨Machine.admits_of_forall (judges 1), ?_⟩, Machine.admits_of_forall goesOn⟩, Machine.admits_of_forall (judges 2)⟩
    refine ⟨trivial, ?_, ⟨?_, ?_⟩, ⟨?_, ?_⟩, trivial⟩
    · intro j member
      obtain rfl := List.mem_singleton.mp member
      trivial
    · intro _
      refine .inr (.inr ?_)
      intro j member
      obtain rfl := List.mem_singleton.mp member
      trivial
    · intro found
      cases found
    · intro found
      cases found
    · intro _
      refine .inr (.inr ?_)
      intro j member
      obtain rfl := List.mem_singleton.mp member
      trivial
  exact ⟨clean, later_decisions_fresh (rooted "a") [] [] clean⟩

/-- One that has read the old file keeps what it read after the caches are cleared. -/
theorem old_rules_kept : ¬ ∀ (files : Dir → List (Option Patterns)) (excludes includes : List FilterEntry) (events : List ClonesEvent),
    ∀ a ∈ (Machine.run Clones.step (.start files excludes includes) events).answers, a.later = true →
      a.answer = a.present.decision a.call := by
  intro fresh
  have answers := fresh (rooted "a") [] [] (judged 7 ++ changed ++ List.replicate 2 (.step 0) ++ judged 2)
  have old : ∃ a ∈ (Machine.run Clones.step (.start (rooted "a") [] [])
      (judged 7 ++ changed ++ List.replicate 2 (.step 0) ++ judged 2)).answers,
      a.later = true ∧ a.answer ≠ a.present.decision a.call := by
    decide
  obtain ⟨a, member, began, differs⟩ := old
  exact differs (answers a member began)

end Oxplow.Proofs.FilterRuns
