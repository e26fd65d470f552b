import Oxplow.Commands.Steps

/-! A composite's inverse brings back the state before it, unless it nests deeper than a composite
may: that is when an inverse of one of its calls is a composite too. -/

namespace Oxplow.Proofs.CompositeUndo
open Steps Library.Outcome

variable {σ ε φ : Type} {bus : CommandBus σ ε φ}

/-! ## Calls that route inside the transaction -/

mutual
/-- The composites that a call goes through. -/
def composedDepth : Composed σ ε φ → Nat
  | .mk calls _ _ => depths calls + 1

def depths : List (ComposedCall σ ε φ) → Nat
  | [] => 0
  | c :: calls => max (depth c) (depths calls)

def depth : ComposedCall σ ε φ → Nat
  | .leaf _ _ => 0
  | .composite _ _ nested => composedDepth nested
end

mutual
/-- What a call routes to that is a command's in the transaction, or a sequence of such. -/
inductive Routes (bus : CommandBus σ ε φ) : CommandCall → ComposedCall σ ε φ → Prop
  | leaf {command : Command σ ε φ} {call : CommandCall} {run : TxHandler σ ε φ}
      (found : bus.commands call.name = some command) (writes : command.spec.readsOnly = false)
      (valid : command.validator call.input = .ok ()) (runs : command.handler = .tx run) : Routes bus call (.leaf command call)
  | sequence {call : CommandCall} {calls : List CommandCall} {routed : List (ComposedCall σ ε φ)} (named : call.name = sequenceId)
      (input : sequenceInput call.input = .ok calls) (each : RoutesAll bus calls routed) :
      Routes bus call (.composite sequenceCommand call (.mk routed none []))

inductive RoutesAll (bus : CommandBus σ ε φ) : List CommandCall → List (ComposedCall σ ε φ) → Prop
  | nil : RoutesAll bus [] []
  | cons {call : CommandCall} {calls : List CommandCall} {c : ComposedCall σ ε φ} {routed : List (ComposedCall σ ε φ)}
      (first : Routes bus call c) (rest : RoutesAll bus calls routed) : RoutesAll bus (call :: calls) (c :: routed)
end

variable {command : Command σ ε φ}

theorem route_leaf {call : CommandCall} {run : TxHandler σ ε φ} (found : bus.commands call.name = some command)
    (writes : command.spec.readsOnly = false) (valid : command.validator call.input = .ok ()) (runs : command.handler = .tx run)
    (nested : RouteNested σ ε φ) (at_ : String) (i : Nat) :
    routeCall bus.commands nested at_ i call = .ok (.leaf command call, false) := by
  simp only [routeCall, found, Option.elim_some, bind, Except.bind, writes, ensure, if_true, valid, Except.mapError, runs]
  rfl

/-- A sequence routes where what it runs does, one level deeper. -/
theorem route_sequence {call : CommandCall} {calls : List CommandCall} (named : call.name = sequenceId)
    (input : sequenceInput call.input = .ok calls) (nested : RouteNested σ ε φ) (at_ : String) (i : Nat) :
    routeCall bus.commands nested at_ i call = (do
      let inner ← nested sequenceComposer call.input call.name s!"{at_}/calls/{i}/input"
      ensure (inner.outside = none) (.invalid (some s!"{at_}/calls/{i}/name")
        s!"`{call.name}` runs steps outside the transaction, so it can't be one step of another composite")
      pure (.composite sequenceCommand call inner.composed, false)) := by
  have found : bus.commands call.name = some sequenceCommand := named ▸ bus.sequence
  have valid : (sequenceCommand : Command σ ε φ).validator call.input = .ok () := by simp [sequenceCommand, input, Except.map]
  simp only [routeCall, found, Option.elim_some, bind, Except.bind, valid, Except.mapError]
  rfl

theorem routeFor_sequence {calls : List CommandCall} {input : Jobs.Json} (parsed : sequenceInput input = .ok calls) (s : σ)
    (levels : Nat) (name at_ : String) : routeFor bus.commands s (levels + 1) sequenceComposer input name at_ =
      (routeCalls bus.commands (routeFor bus.commands s levels) at_ 0 calls).map fun routed =>
        ⟨.mk routed.1 none [], routed.2⟩ := by
  simp only [routeFor, sequenceComposer, bind, Except.bind, parsed, pure, Except.pure]
  cases routeCalls bus.commands (routeFor bus.commands s levels) at_ 0 calls <;> rfl

mutual
theorem Routes.route {call : CommandCall} {c : ComposedCall σ ε φ} (routes : Routes bus call c) (s : σ) {levels : Nat}
    (fits : depth c ≤ levels) (at_ : String) (i : Nat) :
    routeCall bus.commands (routeFor bus.commands s levels) at_ i call = .ok (c, false) := by
  match routes with
  | .leaf found writes valid runs => exact route_leaf found writes valid runs _ _ _
  | .sequence named input each =>
    rw [depth, composedDepth] at fits
    obtain ⟨below, rfl⟩ : ∃ below, levels = below + 1 := ⟨levels - 1, by omega⟩
    rw [route_sequence named input, routeFor_sequence input, each.route s (by omega)]
    rfl

theorem RoutesAll.route {calls : List CommandCall} {routed : List (ComposedCall σ ε φ)} (routes : RoutesAll bus calls routed)
    (s : σ) {levels : Nat} (fits : depths routed ≤ levels) (at_ : String) (i : Nat) :
    routeCalls bus.commands (routeFor bus.commands s levels) at_ i calls = .ok (routed, none) := by
  match routes with
  | .nil => rfl
  | .cons first rest =>
    rw [depths] at fits
    have here := first.route s (show depth _ ≤ levels by omega) at_ i
    have later := rest.route s (show depths _ ≤ levels by omega) at_ (i + 1)
    simp only [routeCalls, here, later, bind, Except.bind]
    rfl
end

mutual
theorem Routes.refuse {call : CommandCall} {c : ComposedCall σ ε φ} (routes : Routes bus call c) (s : σ) {levels : Nat}
    (deep : levels < depth c) (at_ : String) (i : Nat) :
    ∃ error, routeCall bus.commands (routeFor bus.commands s levels) at_ i call = .error error := by
  match routes with
  | .leaf _ _ _ _ => exact absurd deep (Nat.not_lt_zero _)
  | .sequence named input each =>
    rw [depth, composedDepth] at deep
    rw [route_sequence named input]
    cases levels with
    | zero => exact ⟨_, rfl⟩
    | succ below =>
      obtain ⟨error, refused⟩ := each.refuse s (Nat.lt_of_succ_lt_succ deep) s!"{at_}/calls/{i}/input" 0
      rw [routeFor_sequence input, refused]
      exact ⟨error, rfl⟩

theorem RoutesAll.refuse {calls : List CommandCall} {routed : List (ComposedCall σ ε φ)} (routes : RoutesAll bus calls routed)
    (s : σ) {levels : Nat} (deep : levels < depths routed) (at_ : String) (i : Nat) :
    ∃ error, routeCalls bus.commands (routeFor bus.commands s levels) at_ i calls = .error error := by
  match routes with
  | .nil => exact absurd deep (Nat.not_lt_zero _)
  | .cons (c := c) first rest =>
    rw [depths] at deep
    by_cases here : levels < depth c
    · obtain ⟨error, refused⟩ := first.refuse s here at_ i
      simp only [routeCalls, refused, bind, Except.bind]
      exact ⟨error, rfl⟩
    · obtain ⟨error, refused⟩ := rest.refuse s (show levels < depths _ by omega) at_ (i + 1)
      simp only [routeCalls, first.route s (Nat.le_of_not_lt here) at_ i, refused, bind, Except.bind]
      exact ⟨error, rfl⟩
end

mutual
theorem Routes.unique {call : CommandCall} {c c' : ComposedCall σ ε φ} (routes : Routes bus call c)
    (other : Routes bus call c') : c = c' := by
  match routes, other with
  | .leaf found _ _ _, .leaf found' _ _ _ => rw [Option.some.inj (found.symm.trans found')]
  | .leaf found _ _ runs, .sequence named _ _ =>
    have same := Option.some.inj ((named ▸ found).symm.trans bus.sequence)
    rw [same] at runs
    cases runs
  | .sequence named _ _, .leaf found _ _ runs =>
    have same := Option.some.inj ((named ▸ found).symm.trans bus.sequence)
    rw [same] at runs
    cases runs
  | .sequence _ input each, .sequence _ input' each' =>
    cases Except.ok.inj (input.symm.trans input')
    rw [each.unique each']

theorem RoutesAll.unique {calls : List CommandCall} {routed routed' : List (ComposedCall σ ε φ)}
    (routes : RoutesAll bus calls routed) (other : RoutesAll bus calls routed') : routed = routed' := by
  match routes, other with
  | .nil, .nil => rfl
  | .cons first rest, .cons first' rest' => rw [first.unique first', rest.unique rest']
end


/-! ## A run, call by call -/

/-- An answer that says it changed nothing gives nothing. -/
def Honest (out : HandlerOutput ε φ) : Prop := out.unchanged = false ∨ out.events.isEmpty ∧ out.inverse.isNone

variable {answer : HandlerOutput ε φ}

theorem honest_ok {out : HandlerOutput ε φ} {name : String} : honest out name = .ok answer ↔ Honest out ∧ out = answer := by
  simp only [honest, Honest, bind_ok, ensure_ok, pure_ok, exists_and_left, exists_const]

variable {calls : List (ComposedCall σ ε φ)}

theorem runTree_ok {result : Option Jobs.Json} {events : List ε} {s after : σ} {out : HandlerOutput ε φ} :
    runTree (.mk calls result events) s = .ok (out, after) ↔
      ∃ ran, runCalls calls s = .ok (ran, after) ∧ ran.answer result events = out := by
  simp only [runTree, bind_ok, pure_ok, Prod.mk.injEq, Prod.exists]
  constructor
  · rintro ⟨ran, _, runs, same, rfl⟩
    exact ⟨ran, runs, same⟩
  · rintro ⟨ran, runs, same⟩
    exact ⟨ran, _, runs, same, rfl⟩

theorem runCalls_cons {c : ComposedCall σ ε φ} {s after : σ} {ran : Children ε φ} :
    runCalls (c :: calls) s = .ok (ran, after) ↔ ∃ out next rest, runCall c s = .ok (out, next) ∧
      Honest out ∧ runCalls calls next = .ok (rest, after) ∧ .after c out rest = ran := by
  simp only [runCalls, bind_ok, honest_ok, pure_ok, Prod.mk.injEq, Prod.exists]
  constructor
  · rintro ⟨out, next, here, _, ⟨kept, rfl⟩, rest, _, later, same, rfl⟩
    exact ⟨out, next, rest, here, kept, later, same⟩
  · rintro ⟨out, next, rest, here, kept, later, same⟩
    exact ⟨out, next, here, out, ⟨kept, rfl⟩, rest, after, later, same, rfl⟩

theorem runCalls_append {more : List (ComposedCall σ ε φ)} {s middle after : σ} {ran ran' : Children ε φ}
    (first : runCalls calls s = .ok (ran, middle)) (second : runCalls more middle = .ok (ran', after)) :
    ∃ whole, runCalls (calls ++ more) s = .ok (whole, after) := by
  induction calls generalizing s ran with
  | nil =>
    obtain ⟨_, rfl⟩ := Prod.mk.inj (Except.ok.inj first)
    exact ⟨ran', second⟩
  | cons c calls ih =>
    obtain ⟨out, next, rest, here, kept, later, _⟩ := runCalls_cons.mp first
    obtain ⟨whole, runs⟩ := ih later
    exact ⟨_, runCalls_cons.mpr ⟨out, next, whole, here, kept, runs, rfl⟩⟩

/-- A leaf of the tree as it ran, `level` composites deep. -/
structure LeafRun (σ ε φ : Type) where
  level : Nat
  before : σ
  out : HandlerOutput ε φ
  after : σ

mutual
def leafRuns (level : Nat) : Composed σ ε φ → σ → List (LeafRun σ ε φ)
  | .mk calls _ _, s => leafRunsAll level calls s

def leafRunsAll (level : Nat) : List (ComposedCall σ ε φ) → σ → List (LeafRun σ ε φ)
  | [], _ => []
  | c :: calls, s =>
    match runCall c s with
    | .ok (_, next) => leafRunsOf level c s ++ leafRunsAll level calls next
    | .error _ => []

def leafRunsOf (level : Nat) : ComposedCall σ ε φ → σ → List (LeafRun σ ε φ)
  | .composite _ _ nested, s => leafRuns (level + 1) nested s
  | .leaf command call, s =>
    match runCall (.leaf command call) s with
    | .ok (out, after) => [⟨level, s, out, after⟩]
    | .error _ => []
end

theorem leafRunsAll_cons {c : ComposedCall σ ε φ} {s next : σ} {out : HandlerOutput ε φ} (here : runCall c s = .ok (out, next))
    (level : Nat) : leafRunsAll level (c :: calls) s = leafRunsOf level c s ++ leafRunsAll level calls next := by
  rw [leafRunsAll, here]

theorem leafRunsOf_leaf {call : CommandCall} {s after : σ} {out : HandlerOutput ε φ}
    (here : runCall (.leaf command call) s = .ok (out, after)) (level : Nat) :
    leafRunsOf level (.leaf command call) s = [⟨level, s, out, after⟩] := by
  rw [leafRunsOf, here]

/-- A leaf that says it changed nothing left the state as it was. -/
def Unchanging (run : LeafRun σ ε φ) : Prop := run.out.unchanged = true → run.after = run.before

/-! ## What changed nothing -/

theorem inverses_after {c : ComposedCall σ ε φ} {out : HandlerOutput ε φ} {rest : Children ε φ}
    (nothing : (Children.after c out rest).inverses = []) :
    out.unchanged = true ∧ rest.inverses = [] := by
  obtain ⟨first, later⟩ := List.append_eq_nil_iff.mp nothing
  refine ⟨?_, later⟩
  by_contra changed
  rw [if_neg changed] at first
  cases first

mutual
theorem tree_unchanged (composed : Composed σ ε φ) {level : Nat} {s after : σ} {out : HandlerOutput ε φ}
    (ran : runTree composed s = .ok (out, after)) (same : out.unchanged = true)
    (leaves : ∀ run ∈ leafRuns level composed s, Unchanging run) :
    after = s ∧ ∀ run ∈ leafRuns level composed s, run.out.unchanged = true := by
  match composed with
  | .mk calls result events =>
    obtain ⟨children, runs, rfl⟩ := runTree_ok.mp ran
    obtain ⟨nothing, _⟩ := Bool.and_eq_true_iff.mp same
    exact calls_unchanged calls runs (List.isEmpty_iff.mp nothing) leaves

theorem calls_unchanged (calls : List (ComposedCall σ ε φ)) {level : Nat} {s after : σ} {ran : Children ε φ}
    (runs : runCalls calls s = .ok (ran, after)) (same : ran.inverses = [])
    (leaves : ∀ run ∈ leafRunsAll level calls s, Unchanging run) :
    after = s ∧ ∀ run ∈ leafRunsAll level calls s, run.out.unchanged = true := by
  match calls with
  | [] =>
    obtain ⟨_, rfl⟩ := Prod.mk.inj (Except.ok.inj runs)
    exact ⟨rfl, fun _ member => absurd member List.not_mem_nil⟩
  | c :: calls =>
    obtain ⟨out, next, rest, here, _, later, rfl⟩ := runCalls_cons.mp runs
    obtain ⟨unchanged, nothing⟩ := inverses_after same
    rw [leafRunsAll_cons here] at leaves ⊢
    obtain ⟨rfl, first⟩ := call_unchanged c here unchanged fun run member => leaves run (List.mem_append_left _ member)
    obtain ⟨back, others⟩ := calls_unchanged calls later nothing fun run member => leaves run (List.mem_append_right _ member)
    exact ⟨back, fun run member => (List.mem_append.mp member).elim (first run) (others run)⟩

theorem call_unchanged (c : ComposedCall σ ε φ) {level : Nat} {s after : σ} {out : HandlerOutput ε φ}
    (runs : runCall c s = .ok (out, after)) (same : out.unchanged = true)
    (leaves : ∀ run ∈ leafRunsOf level c s, Unchanging run) :
    after = s ∧ ∀ run ∈ leafRunsOf level c s, run.out.unchanged = true := by
  match c with
  | .leaf command call =>
    rw [leafRunsOf_leaf runs] at leaves ⊢
    refine ⟨leaves _ List.mem_cons_self same, fun run member => ?_⟩
    rw [List.mem_singleton.mp member]
    exact same
  | .composite command call nested =>
    rw [runCall] at runs
    exact tree_unchanged nested runs same leaves
end

/-! ## Inverses -/

theorem collect_append (first second : List (Option CommandCall)) :
    collect (first ++ second) = (collect first).bind fun calls => (collect second).map (calls ++ ·) := by
  induction first with
  | nil => simp [collect]
  | cons call first ih =>
    rw [List.cons_append, collect, ih, collect]
    cases call with
    | none => rfl
    | some call =>
      cases collect first with
      | none => rfl
      | some calls => cases collect second <;> rfl

theorem collect_reverse (inverses : List (Option CommandCall)) :
    collect inverses.reverse = (collect inverses).map List.reverse := by
  induction inverses with
  | nil => rfl
  | cons call inverses ih =>
    rw [List.reverse_cons, collect_append, ih]
    cases call with
    | none => cases collect inverses <;> rfl
    | some call => cases found : collect inverses <;> simp [collect, found]

variable {inverses : List (Option CommandCall)}

theorem collect_nil (nothing : collect inverses = some []) : inverses = [] := by
  cases inverses with
  | nil => rfl
  | cons call inverses =>
    obtain ⟨_, _, more⟩ := Option.bind_eq_some_iff.mp nothing
    obtain ⟨_, _, same⟩ := Option.map_eq_some_iff.mp more
    cases same

theorem answer_inverse {ran : Children ε φ} {result : Option Jobs.Json} {events : List ε} {inverse : CommandCall} :
    (ran.answer result events).inverse = some inverse ↔
      ran.inverses ≠ [] ∧ ∃ calls, collect ran.inverses = some calls ∧ sequenceOf calls.reverse = inverse := by
  simp only [Children.answer, collect_reverse]
  cases ran.inverses with
  | nil => simp
  | cons call inverses => simp [Option.map_eq_some_iff]

theorem answer_honest {s after : σ} {ran : Children ε φ} (runs : runCalls calls s = .ok (ran, after)) (result : Option Jobs.Json)
    (events : List ε) : Honest (ran.answer result events) := by
  have silent : ran.inverses = [] → ran.events = [] := by
    clear result events
    induction calls generalizing s ran with
    | nil =>
      obtain ⟨rfl, _⟩ := Prod.mk.inj (Except.ok.inj runs)
      exact fun _ => rfl
    | cons c calls ih =>
      obtain ⟨out, next, rest, _, kept, later, rfl⟩ := runCalls_cons.mp runs
      intro nothing
      obtain ⟨unchanged, nothing⟩ := inverses_after nothing
      obtain ⟨events, _⟩ := kept.resolve_left (by rw [unchanged]; decide)
      change out.events ++ rest.events = []
      rw [ih later nothing, List.isEmpty_iff.mp events, List.append_nil]
  by_cases unchanged : (ran.answer result events).unchanged = true
  · obtain ⟨nothing, empty⟩ := Bool.and_eq_true_iff.mp unchanged
    refine .inr ⟨?_, ?_⟩
    · change (ran.events ++ events).isEmpty = true
      rw [silent (List.isEmpty_iff.mp nothing), List.nil_append]
      exact empty
    · change Option.isNone (if ran.inverses.isEmpty then none else _) = true
      rw [if_pos nothing]
      rfl
  · exact .inl (Bool.not_eq_true _ ▸ unchanged)

theorem RoutesAll.append {calls more : List CommandCall} {routed routed' : List (ComposedCall σ ε φ)}
    (routes : RoutesAll bus calls routed) (second : RoutesAll bus more routed') :
    RoutesAll bus (calls ++ more) (routed ++ routed') := by
  match routes with
  | .nil => exact second
  | .cons first rest => exact .cons first (rest.append second)

theorem RoutesAll.reverse {calls : List CommandCall} {routed : List (ComposedCall σ ε φ)} (routes : RoutesAll bus calls routed) :
    RoutesAll bus calls.reverse routed.reverse := by
  match routes with
  | .nil => exact .nil
  | .cons first rest =>
    rw [List.reverse_cons, List.reverse_cons]
    exact rest.reverse.append (.cons first .nil)

theorem runCall_leaf {call : CommandCall} {run : TxHandler σ ε φ} (runs : command.handler = .tx run) (s : σ) :
    runCall (.leaf command call) s = run s call.input := by
  rw [runCall, runs]

theorem depths_le {limit : Nat} : depths calls ≤ limit ↔ ∀ c ∈ calls, depth c ≤ limit := by
  induction calls with
  | nil => simp [depths]
  | cons c calls ih => simp only [depths, Nat.max_le, ih, List.forall_mem_cons]

theorem depths_reverse (calls : List (ComposedCall σ ε φ)) : depths calls.reverse = depths calls := by
  apply Nat.le_antisymm
  · exact depths_le.mpr fun c member => depths_le.mp (Nat.le_refl _) c (List.mem_reverse.mp member)
  · exact depths_le.mpr fun c member => depths_le.mp (Nat.le_refl _) c (List.mem_reverse.mpr member)

/-! ## A call on its own -/

/-- A registered command that says it changed nothing left the state as it was. -/
def Truthful (bus : CommandBus σ ε φ) : Prop :=
  ∀ name command run, bus.commands name = some command → command.handler = .tx run →
    ∀ s input out after, run s input = .ok (out, after) → out.unchanged = true → after = s

mutual
theorem Routes.unchanging {call : CommandCall} {c : ComposedCall σ ε φ} (routes : Routes bus call c) (truthful : Truthful bus)
    {level : Nat} {s : σ} : ∀ run ∈ leafRunsOf level c s, Unchanging run := by
  intro run member
  match routes with
  | .leaf found _ _ runs =>
    rw [leafRunsOf] at member
    split at member
    next out after here =>
      obtain rfl := List.mem_singleton.mp member
      rw [runCall_leaf runs] at here
      exact truthful _ _ _ found runs _ _ _ _ here
    next => cases member
  | .sequence _ _ each =>
    rw [leafRunsOf, leafRuns] at member
    exact each.unchanging truthful run member

theorem RoutesAll.unchanging {calls : List CommandCall} {routed : List (ComposedCall σ ε φ)} (routes : RoutesAll bus calls routed)
    (truthful : Truthful bus) {level : Nat} {s : σ} : ∀ run ∈ leafRunsAll level routed s, Unchanging run := by
  intro run member
  match routes with
  | .nil => exact absurd member List.not_mem_nil
  | .cons first rest =>
    rw [leafRunsAll] at member
    split at member
    · exact (List.mem_append.mp member).elim (first.unchanging truthful run) (rest.unchanging truthful run)
    · cases member
end

theorem commit_call {name : String} {before next after : σ} {out : HandlerOutput ε φ} :
    commit .call name before (out, next) = .ok (answer, after) ↔
      Honest out ∧ out = answer ∧ (if out.unchanged then before else next) = after := by
  simp only [commit, map_ok, honest_ok, Prod.mk.injEq]
  constructor
  · rintro ⟨out', ⟨kept, rfl⟩, rfl, back⟩
    exact ⟨kept, rfl, back⟩
  · rintro ⟨kept, rfl, back⟩
    exact ⟨out, ⟨kept, rfl⟩, rfl, back⟩

theorem run_leaf {call : CommandCall} {run : TxHandler σ ε φ} (found : bus.commands call.name = some command)
    (valid : command.validator call.input = .ok ()) (runs : command.handler = .tx run) (origin : RunOrigin) (s : σ) :
    bus.run origin call s = runCall (.leaf command call) s >>= commit origin call.name s := by
  rw [runCall_leaf runs]
  simp only [CommandBus.run, found, Option.elim_some, bind, Except.bind, valid, runs]

/-- A sequence that routes runs its calls; one that nests too deep is turned away. -/
theorem run_sequence {call : CommandCall} {calls : List CommandCall} {routed : List (ComposedCall σ ε φ)}
    (named : call.name = sequenceId) (input : sequenceInput call.input = .ok calls)
    (each : RoutesAll bus calls routed) (origin : RunOrigin) (s : σ) :
    (depths routed < maxNesting → bus.run origin call s = runTree (.mk routed none []) s >>= commit origin call.name s) ∧
    (maxNesting ≤ depths routed → ∃ error, bus.run origin call s = .error error) := by
  have found : bus.commands call.name = some sequenceCommand := named ▸ bus.sequence
  have valid : (sequenceCommand : Command σ ε φ).validator call.input = .ok () := by simp [sequenceCommand, input, Except.map]
  have routes : routeFor bus.commands s maxNesting sequenceComposer call.input "" "" =
      (routeCalls bus.commands (routeFor bus.commands s 7) "" 0 calls).map fun routed => ⟨.mk routed.1 none [], routed.2⟩ :=
    routeFor_sequence input s 7 "" ""
  have whole : bus.run origin call s = (do
      let routed ← routeFor bus.commands s maxNesting sequenceComposer call.input "" ""
      ensure (routed.outside = none) (.failed "outside the transaction")
      runTree routed.composed s >>= commit origin call.name s) := by
    simp only [CommandBus.run, found, Option.elim_some, bind, Except.bind, valid]
    rfl
  constructor
  · intro fits
    have inside := each.route s (Nat.le_of_lt_succ fits) "" 0
    rw [inside] at routes
    rw [whole, routes]
    rfl
  · intro deep
    obtain ⟨error, refused⟩ := each.refuse s (show 7 < depths routed from deep) "" 0
    rw [refused] at routes
    refine ⟨error, ?_⟩
    rw [whole, routes]
    rfl

/-- What a call does on its own it does as a call of a sequence. -/
theorem Routes.run {call : CommandCall} {c : ComposedCall σ ε φ} (routes : Routes bus call c) (truthful : Truthful bus)
    {s after : σ} (ran : bus.run .call call s = .ok (answer, after)) : ∃ out, runCall c s = .ok (out, after) ∧ Honest out := by
  have committed : (runCall c s >>= commit .call call.name s) = .ok (answer, after) →
      ∃ out, runCall c s = .ok (out, after) ∧ Honest out := by
    intro done
    obtain ⟨⟨out, next⟩, here, done⟩ := bind_ok.mp done
    obtain ⟨kept, _, back⟩ := commit_call.mp done
    refine ⟨out, ?_, kept⟩
    rw [here]
    by_cases unchanged : out.unchanged = true
    · rw [if_pos unchanged] at back
      have unmoved := (@call_unchanged σ ε φ c 0 s next out here unchanged (routes.unchanging truthful)).1
      rw [unmoved, back]
    · rw [if_neg unchanged] at back
      rw [back]
  match routes with
  | .leaf found _ valid runs =>
    rw [run_leaf found valid runs] at ran
    exact committed ran
  | @Routes.sequence _ _ _ _ _ _ routed named input each =>
    obtain ⟨fits, deep⟩ := run_sequence named input each .call s
    by_cases shallow : depths routed < maxNesting
    · rw [fits shallow] at ran
      exact committed ran
    · obtain ⟨error, refused⟩ := deep (Nat.le_of_not_lt shallow)
      rw [refused] at ran
      cases ran

/-! ## The inverse of a composite -/

/-- A leaf of the tree: one that changed nothing left the state as it was, and its inverse, which is
a command's in the transaction or a sequence of such, brings back the state before it. -/
structure LeafUndone (bus : CommandBus σ ε φ) (run : LeafRun σ ε φ) : Prop where
  unchanging : Unchanging run
  routes : ∀ inverse, run.out.inverse = some inverse → ∃ c, Routes bus inverse c
  restores : ∀ inverse, run.out.inverse = some inverse → ∃ answer, bus.run .call inverse run.after = .ok (answer, run.before)

/-- The inverses of the leaves that changed something nest no deeper than the limit, with the
composites they are in. -/
def Within (bus : CommandBus σ ε φ) (limit : Nat) (runs : List (LeafRun σ ε φ)) : Prop :=
  ∀ run ∈ runs, run.out.unchanged = false → ∀ inverse c, run.out.inverse = some inverse → Routes bus inverse c →
    run.level + depth c ≤ limit

theorem within_append {limit : Nat} {runs more : List (LeafRun σ ε φ)} :
    Within bus limit (runs ++ more) ↔ Within bus limit runs ∧ Within bus limit more := by
  simp only [Within, List.mem_append, or_imp, forall_and]

theorem within_unchanged {limit : Nat} {runs : List (LeafRun σ ε φ)} (unchanged : ∀ run ∈ runs, run.out.unchanged = true) :
    Within bus limit runs := by
  intro run member changed
  rw [unchanged run member] at changed
  cases changed

mutual
/-- The inverses of the calls, the last one's first, bring back the state before the calls. -/
theorem calls_undone (truthful : Truthful bus) (calls : List (ComposedCall σ ε φ)) {level : Nat} {s after : σ} {ran : Children ε φ}
    {inverses : List CommandCall} (runs : runCalls calls s = .ok (ran, after)) (all : collect ran.inverses = some inverses)
    (leaves : ∀ run ∈ leafRunsAll level calls s, LeafUndone bus run) :
    ∃ routed, RoutesAll bus inverses routed ∧ (∃ back, runCalls routed.reverse after = .ok (back, s)) ∧
      ∀ limit, Within bus limit (leafRunsAll level calls s) ↔ routed = [] ∨ level + depths routed ≤ limit := by
  match calls with
  | [] =>
    obtain ⟨rfl, rfl⟩ := Prod.mk.inj (Except.ok.inj runs)
    obtain rfl := Option.some.inj all
    refine ⟨[], .nil, ⟨_, rfl⟩, fun limit => ⟨fun _ => .inl rfl, fun _ => ?_⟩⟩
    exact within_unchanged fun _ member => absurd member List.not_mem_nil
  | c :: calls =>
    obtain ⟨out, next, rest, here, kept, later, rfl⟩ := runCalls_cons.mp runs
    rw [leafRunsAll_cons here] at leaves ⊢
    have first := fun run member => leaves run (List.mem_append_left _ member)
    have others := fun run member => leaves run (List.mem_append_right _ member)
    by_cases unchanged : out.unchanged = true
    · obtain ⟨rfl, same⟩ := call_unchanged c here unchanged fun run member => (first run member).unchanging
      rw [Children.after, if_pos unchanged, List.nil_append] at all
      obtain ⟨routed, routes, back, within⟩ := calls_undone truthful calls later all others
      refine ⟨routed, routes, back, fun limit => ?_⟩
      rw [within_append, within limit]
      exact ⟨And.right, fun fits => ⟨within_unchanged same, fits⟩⟩
    · rw [Children.after, if_neg unchanged, List.singleton_append, collect] at all
      obtain ⟨inverse, gave, all⟩ := Option.bind_eq_some_iff.mp all
      obtain ⟨more, collected, rfl⟩ := Option.map_eq_some_iff.mp all
      obtain ⟨gave, _⟩ := Option.filter_eq_some_iff.mp gave
      obtain ⟨routed, routes, ⟨back, undone⟩, within⟩ := calls_undone truthful calls later collected others
      obtain ⟨undo, route, ⟨answer, undoes, honestly⟩, bound⟩ :=
        call_undone truthful c here (Bool.not_eq_true _ ▸ unchanged) gave first
      refine ⟨undo :: routed, .cons route routes, ?_, fun limit => ?_⟩
      · rw [List.reverse_cons]
        exact runCalls_append undone (runCalls_cons.mpr ⟨answer, s, _, undoes, honestly, rfl, rfl⟩)
      · rw [within_append, bound limit, within limit, depths]
        constructor
        · rintro ⟨here, rfl | later⟩
          · exact .inr (by rw [depths]; omega)
          · exact .inr (by omega)
        · rintro (nothing | fits)
          · cases nothing
          · exact ⟨by omega, .inr (by omega)⟩

theorem call_undone (truthful : Truthful bus) (c : ComposedCall σ ε φ) {level : Nat} {s after : σ} {out : HandlerOutput ε φ}
    {inverse : CommandCall} (runs : runCall c s = .ok (out, after)) (changed : out.unchanged = false)
    (gave : out.inverse = some inverse)
    (leaves : ∀ run ∈ leafRunsOf level c s, LeafUndone bus run) :
    ∃ undo, Routes bus inverse undo ∧
      (∃ answer, runCall undo after = .ok (answer, s) ∧ Honest answer) ∧
      ∀ limit, Within bus limit (leafRunsOf level c s) ↔ level + depth undo ≤ limit := by
  match c with
  | .leaf command call =>
    rw [leafRunsOf_leaf runs] at leaves ⊢
    have leaf := leaves _ List.mem_cons_self
    obtain ⟨undo, route⟩ := leaf.routes inverse gave
    obtain ⟨answer, alone⟩ := leaf.restores inverse gave
    refine ⟨undo, route, route.run truthful alone, fun limit => ⟨fun within => ?_, ?_⟩⟩
    · exact within _ List.mem_cons_self changed inverse undo gave route
    · intro fits run member _ other c' gave' route'
      obtain rfl := List.mem_singleton.mp member
      obtain rfl := Option.some.inj (gave.symm.trans gave')
      rwa [route'.unique route]
  | .composite command call (.mk calls result events) =>
    rw [runCall] at runs
    obtain ⟨ran, inside, rfl⟩ := runTree_ok.mp runs
    obtain ⟨several, inverses, all, rfl⟩ := answer_inverse.mp gave
    rw [leafRunsOf, leafRuns] at leaves ⊢
    obtain ⟨routed, routes, ⟨back, undone⟩, bound⟩ := calls_undone truthful calls inside all leaves
    refine ⟨_, .sequence rfl (sequenceInput_calls _) routes.reverse, ⟨_, ?_, answer_honest undone none []⟩, fun limit => ?_⟩
    · rw [runCall]
      exact runTree_ok.mpr ⟨back, undone, rfl⟩
    · have undoes : routed ≠ [] := by
        rintro rfl
        cases routes
        exact several (collect_nil all)
      rw [bound limit, depth, composedDepth, depths_reverse]
      constructor
      · rintro (nothing | fits)
        · exact absurd nothing undoes
        · omega
      · exact fun fits => .inr (by omega)
end

/-- The answers of the calls of a composite. -/
def answers : List (ComposedCall σ ε φ) → σ → List (ComposedCall σ ε φ × HandlerOutput ε φ)
  | [], _ => []
  | c :: calls, s =>
    match runCall c s with
    | .ok (out, next) => (c, out) :: answers calls next
    | .error _ => []

/-- One of the calls changed something, and every one that did gave an inverse and is undoable. -/
def Gives (calls : List (ComposedCall σ ε φ)) (s : σ) : Prop :=
  (∃ a ∈ answers calls s, a.2.unchanged = false) ∧
    ∀ a ∈ answers calls s, a.2.unchanged = false → a.2.inverse.isSome = true ∧ a.1.command.spec.undoable = true

/-- A composite's answer, by those of its calls. -/
structure Undone (bus : CommandBus σ ε φ) (calls : List (ComposedCall σ ε φ)) (events : List ε) (s : σ) (out : HandlerOutput ε φ)
    (after : σ) : Prop where
  restores : ∀ inverse, out.inverse = some inverse → ∀ origin, ∃ answer, bus.run origin inverse after = .ok (answer, s)
  gives : out.inverse.isSome = true ↔ Gives calls s
  changed : out.unchanged = false ↔ (∃ a ∈ answers calls s, a.2.unchanged = false) ∨ events ≠ []
  steps : ∀ inverse, out.inverse = some inverse →
    inverse = sequenceOf (((answers calls s).filter fun a => !a.2.unchanged).reverse.filterMap fun a => a.2.inverse)

/-- The inverse that a call gives, if its command is undoable. -/
def given (a : ComposedCall σ ε φ × HandlerOutput ε φ) : Option CommandCall := a.2.inverse.filter fun _ => a.1.command.spec.undoable

theorem inverses_answers {s after : σ} {ran : Children ε φ} (runs : runCalls calls s = .ok (ran, after)) :
    ran.inverses = ((answers calls s).filter fun a => !a.2.unchanged).map given := by
  induction calls generalizing s ran with
  | nil =>
    obtain ⟨rfl, _⟩ := Prod.mk.inj (Except.ok.inj runs)
    rfl
  | cons c calls ih =>
    obtain ⟨out, next, rest, here, _, later, rfl⟩ := runCalls_cons.mp runs
    rw [answers, here, Children.after, ih later]
    cases unchanged : out.unchanged <;> simp [unchanged, given]

theorem collect_isSome : (collect inverses).isSome = true ↔ ∀ inverse ∈ inverses, inverse.isSome = true := by
  induction inverses with
  | nil => simp [collect]
  | cons call inverses ih =>
    cases call with
    | none => simp [collect]
    | some call => simp [collect, ih]

theorem collect_eq {calls : List CommandCall} (found : collect inverses = some calls) : inverses = calls.map some := by
  induction inverses generalizing calls with
  | nil =>
    obtain rfl := Option.some.inj found
    rfl
  | cons call inverses ih =>
    obtain ⟨here, rfl, more⟩ := Option.bind_eq_some_iff.mp found
    obtain ⟨rest, later, rfl⟩ := Option.map_eq_some_iff.mp more
    rw [ih later, List.map_cons]

theorem given_isSome {a : ComposedCall σ ε φ × HandlerOutput ε φ} :
    (given a).isSome = true ↔ a.2.inverse.isSome = true ∧ a.1.command.spec.undoable = true := by
  unfold given
  cases a.2.inverse <;> simp [Option.filter]

theorem filterMap_given {changed : List (ComposedCall σ ε φ × HandlerOutput ε φ)} {inverses : List CommandCall}
    (all : changed.map given = inverses.map some) : (changed.filterMap fun a => a.2.inverse) = inverses := by
  induction changed generalizing inverses with
  | nil => exact (List.map_eq_nil_iff.mp all.symm).symm
  | cons a changed ih =>
    cases inverses with
    | nil => cases all
    | cons inverse inverses =>
      obtain ⟨here, later⟩ := List.cons.inj all
      obtain ⟨gave, _⟩ := Option.filter_eq_some_iff.mp here
      simp only [List.filterMap_cons, gave, ih later]

theorem undone_parts {s after : σ} {ran : Children ε φ} (runs : runCalls calls s = .ok (ran, after)) (result : Option Jobs.Json)
    (events : List ε) :
    ((ran.answer result events).inverse.isSome = true ↔ Gives calls s) ∧
    ((ran.answer result events).unchanged = false ↔ (∃ a ∈ answers calls s, a.2.unchanged = false) ∨ events ≠ []) ∧
    ∀ inverse, (ran.answer result events).inverse = some inverse →
      inverse = sequenceOf (((answers calls s).filter fun a => !a.2.unchanged).reverse.filterMap fun a => a.2.inverse) := by
  have listed := inverses_answers runs
  have several : ran.inverses ≠ [] ↔ ∃ a ∈ answers calls s, a.2.unchanged = false := by
    rw [listed]
    simp [List.filter_eq_nil_iff]
  refine ⟨?_, ?_, ?_⟩
  · have shape : (ran.answer result events).inverse.isSome = true ↔ ran.inverses ≠ [] ∧ (collect ran.inverses).isSome = true := by
      rw [Option.isSome_iff_exists, Option.isSome_iff_exists]
      constructor
      · rintro ⟨inverse, gave⟩
        obtain ⟨nonempty, found, all, _⟩ := answer_inverse.mp gave
        exact ⟨nonempty, found, all⟩
      · rintro ⟨nonempty, found, all⟩
        exact ⟨_, answer_inverse.mpr ⟨nonempty, found, all, rfl⟩⟩
    rw [shape, several, collect_isSome, listed, Gives]
    refine and_congr_right fun _ => ?_
    simp only [List.forall_mem_map, List.mem_filter, Bool.not_eq_true', and_imp, given_isSome]
  · rw [← several]
    change (ran.inverses.isEmpty && events.isEmpty) = false ↔ _
    cases ran.inverses <;> cases events <;> simp
  · intro inverse gave
    obtain ⟨_, found, all, rfl⟩ := answer_inverse.mp gave
    rw [List.filterMap_reverse, filterMap_given (listed.symm.trans (collect_eq all))]

def addCall : CommandCall := ⟨"oxplow.context.add", .null⟩

def clearCall : CommandCall := ⟨"oxplow.context.clear", .null⟩

def basketCommand (inverse : CommandCall) (filled : Bool) : Command Bool Unit Unit where
  spec := ⟨true, false⟩
  validator _ := .ok ()
  handler := .tx fun _ _ => .ok (⟨.null, some inverse, [], [], false⟩, filled)

def addCommand : Command Bool Unit Unit := basketCommand clearCall true

def clearCommand : Command Bool Unit Unit := basketCommand (sequenceOf [addCall]) false

def basketBus : CommandBus Bool Unit Unit where
  commands name :=
    if name = sequenceId then some sequenceCommand
    else if name = addCall.name then some addCommand
    else if name = clearCall.name then some clearCommand
    else none
  sequence := rfl

/-- The basket emptied in sequences of sequences. -/
def nestedClear : Nat → ComposedCall Bool Unit Unit
  | 0 => .leaf clearCommand clearCall
  | n + 1 => .composite sequenceCommand (sequenceOf [(nestedClear n).call]) (.mk [nestedClear n] none [])

theorem basket_truthful : Truthful basketBus := by
  intro name command run found handler s input out after ran unchanged
  have listed : command = sequenceCommand ∨ command = addCommand ∨ command = clearCommand := by
    simp only [basketBus] at found
    split at found
    · exact .inl (Option.some.inj found).symm
    · split at found
      · exact .inr (.inl (Option.some.inj found).symm)
      · split at found
        · exact .inr (.inr (Option.some.inj found).symm)
        · cases found
  rcases listed with rfl | rfl | rfl
  · cases handler
  · cases handler
    cases ran
    cases unchanged
  · cases handler
    cases ran
    cases unchanged

/-- The leaf as it runs on a full basket. -/
def emptying (level : Nat) : LeafRun Bool Unit Unit := ⟨level, true, ⟨.null, some (sequenceOf [addCall]), [], [], false⟩, false⟩

theorem clear_undone (level : Nat) : LeafUndone basketBus (emptying level) where
  unchanging := fun same => by cases same
  routes := by
    rintro inverse same
    obtain rfl := Option.some.inj same
    exact ⟨_, .sequence rfl (sequenceInput_calls _) (.cons (.leaf rfl rfl rfl rfl) .nil)⟩
  restores := by
    rintro inverse same
    obtain rfl := Option.some.inj same
    exact ⟨_, rfl⟩

/-- Sequences of sequences around the call that fills the basket. -/
def sequences : Nat → CommandCall
  | 0 => addCall
  | n + 1 => sequenceOf [sequences n]

end Oxplow.Proofs.CompositeUndo
