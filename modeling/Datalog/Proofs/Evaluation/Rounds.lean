import Datalog.Proofs.Evaluation.SemiNaive

/-!
# Rounds and naive evaluation

After every round of a stratum the main store shows what as many steps of naive evaluation have
derived.  The rounds end when a step of naive evaluation adds nothing.
-/

namespace Datalog

open Interning (terms)

variable {meaning : Interpretation} {rules : List Rule}

/-! ## Steps of naive evaluation -/

noncomputable def naiveGrowth (meaning : Interpretation) (rules : List Rule) (start : Model)
    (rounds : Nat) : Nat :=
  (consequences meaning rules (naive meaning rules start rounds)
    (naive meaning rules start rounds) \ naive meaning rules start rounds).ncard

theorem naive_naiveStep (start : Model) (rounds : Nat) :
    naive meaning rules (naiveStep meaning rules start) rounds =
      naive meaning rules start (rounds + 1) := by
  induction rounds with
  | zero => rfl
  | succ rounds ih =>
      change naiveStep meaning rules (naive meaning rules (naiveStep meaning rules start) rounds) = _
      rw [ih]
      rfl

theorem naiveGrowth_naiveStep (start : Model) (rounds : Nat) :
    naiveGrowth meaning rules (naiveStep meaning rules start) rounds =
      naiveGrowth meaning rules start (rounds + 1) := by
  unfold naiveGrowth
  rw [naive_naiveStep]

/-! ## Rounds that follow naive evaluation -/

/-- A round has been run, and the main store shows the next model of naive evaluation. -/
structure Machine.Advances (schema : Schema) (layout : Layout) (meaning : Interpretation)
    (rules : List Rule) (model fresh : Model) (added : Nat) (later earlier : Machine) : Prop where
  atRest : later.AtRest schema (naiveStep meaning rules model) fresh
  caughtUp : CaughtUp meaning layout.symbols rules (naiveStep meaning rules model) fresh
  fresh_subset : fresh ⊆ naiveStep meaning rules model
  keeps : later.workspace.Keeps .rounds earlier.workspace
  added_eq : added = (consequences meaning rules model model \ model).ncard
  total : later.workspace.db.total layout.symbols =
    earlier.workspace.db.total layout.symbols + added

/-- Some rounds have been run, and the main store shows the model of naive evaluation. -/
structure Machine.Follows (schema : Schema) (layout : Layout) (meaning : Interpretation)
    (rules : List Rule) (start : Model) (deltas : List Nat) (later earlier : Machine) : Prop where
  atRest : ∃ recent,
    later.AtRest schema (naive meaning rules start deltas.length) recent
  keeps : later.workspace.Keeps .rounds earlier.workspace
  deltas_eq : deltas = (List.range deltas.length).map (naiveGrowth meaning rules start)
  total : later.workspace.db.total layout.symbols =
    earlier.workspace.db.total layout.symbols + deltas.sum

namespace FixpointContext

/-- Run a number of rounds, whether they derive anything new or not. -/
def roundsFor (context : FixpointContext) : (count : Nat) → List RulePlan → RunM (List Nat)
  | 0, _ => return []
  | count + 1, rules => do
      let added ← context.round rules
      return added :: (← context.roundsFor count context.deltaRules)

/-- Run the first rounds of a stratum. -/
def firstRounds (context : FixpointContext) (count : Nat) : RunM (List Nat) := do
  updateWorkspace fun workspace => ((), context.seed workspace)
  context.roundsFor count context.rules

/-- The plans of a stratum, in a machine whose stores they fit. -/
structure Prepared (context : FixpointContext) (schema : Schema) (layout : Layout)
    (meaning : Interpretation) (rules : List Rule) : Prop where
  computes : context.functions.Computes meaning
  symbols_eq : layout.symbols = context.symbols
  derived : ∀ symbol ∈ layout.symbols, symbol ∈ schema.derived
  heads : ∀ rule ∈ rules, rule.head.symbol ∈ layout.symbols
  implements : Implements meaning layout.symbols rules context.rules

variable {context : FixpointContext} {schema : Schema} {layout : Layout} {machine : Machine}
  {model recent : Model}

theorem interns_updateWorkspace {α : Type} {update : Workspace → α × Workspace}
    (unchanged : ∀ workspace, (update workspace).2.terms = workspace.terms) :
    Interns (updateWorkspace update) :=
  .modifyGet fun machine => unchanged machine.workspace

theorem interns_round (plans : List RulePlan) : Interns (context.round plans) := by
  refine .bind (interns_updateWorkspace fun _ => rfl) fun _ => ?_
  refine .bind (context.interns_runRules _ _) fun _ => ?_
  exact interns_updateWorkspace fun _ => rfl

theorem interns_roundsFor (count : Nat) (plans : List RulePlan) :
    Interns (context.roundsFor count plans) := by
  induction count generalizing plans with
  | zero => exact .pure
  | succ count ih => exact .bind (interns_round plans) fun _ => .bind (ih _) fun _ => .pure

theorem interns_rounds (fuel : Nat) (plans : List RulePlan) :
    Interns (context.rounds fuel plans) := by
  induction fuel generalizing plans with
  | zero => exact .throw
  | succ fuel ih =>
      refine .bind (interns_round plans) fun added => .ite .pure ?_
      exact .bind (ih _) fun _ => .pure

theorem interns_evaluateRounds (rank : Nat) : Interns (context.evaluateRounds rank) := by
  refine .bind (interns_updateWorkspace fun _ => rfl) fun _ => ?_
  refine .bind (interns_rounds _ _) fun _ => ?_
  exact .bind (interns_updateWorkspace fun _ => rfl) fun _ => .pure

/-- A round leads to the next model of naive evaluation.  If it stops, the main store is as it was. -/
theorem round_leaves (prepared : context.Prepared schema layout meaning rules)
    (atRest : machine.AtRest schema model recent) {plans : List RulePlan}
    (fits : ∀ plan ∈ plans, plan.Fits layout .rounds machine.workspace)
    (covered : Suffices meaning rules plans model recent) :
    LeavesWithRoom (context.round plans) machine
      (fun added later => ∃ fresh,
        Machine.Advances schema layout meaning rules model fresh added later machine)
      fun _ later => later.workspace.Lists model := by
  let frame := Workspace.roundFrame layout meaning plans model recent
  have heads : ∀ plan ∈ plans, plan.headSymbol ∈ layout.symbols :=
    fun plan member => (fits plan member).head_symbol
  refine .modifyGet_bind ?_
  let start : Machine := { machine with workspace := { machine.workspace with derived := 0 } }
  have startAtRest : start.workspace.AtRest schema model recent := { atRest.stores with }
  have startKeeps : start.workspace.Keeps .rounds machine.workspace :=
    ⟨.refl _, fun delta _ _ _ provides => by cases delta <;> exact provides⟩
  have startFits : start.workspace.Fits frame .rounds :=
    startAtRest.fits_round prepared.derived meaning plans
  have sound : ∀ plan ∈ plans, plan.Sound frame .rounds start.workspace := by
    intro plan member
    refine ⟨(fits plan member).keep startKeeps, fun fact derived => ?_⟩
    exact ⟨plan, member, derived⟩
  have ran : LeavesWithRoom (context.runRules .rounds plans) start _ _ :=
    runRules_leaves prepared.computes atRest.idle startFits (by simp [Strategy.triggered]) sound
  refine .bind (ran.mono (fun _ _ done => done) fun _ _ stopped =>
      Workspace.lists_of_fits_round stopped.1) (fun _ => interns_updateWorkspace fun _ => rfl) ?_
  rintro _ later ⟨idle, laterFits, grows, reported⟩ -
  have collected : Workspace.Collected layout meaning plans model recent start.workspace
      later.workspace := by
    refine ⟨laterFits, grows, ?_⟩
    rintro fact ⟨plan, member, derived⟩
    exact reported plan member fact derived
  obtain ⟨fresh, mergedAtRest, freshDerived, split, keeps, added, total⟩ :=
    collected.merge startAtRest prepared.symbols_eq prepared.derived heads
  rw [covered.union_eq] at mergedAtRest
  rw [covered.sdiff_eq] at added
  have inside := planConsequences_inside meaning (reading model recent) model heads
  exact ⟨fresh,
    { atRest := ⟨idle, mergedAtRest⟩
      caughtUp := covered.caughtUp split fun fact isFresh => inside fact (freshDerived isFresh)
      fresh_subset := fun fact isFresh => .inr (covered.sound (freshDerived isFresh))
      keeps := keeps.trans startKeeps
      added_eq := added
      total := total }⟩

theorem roundsFor_leaves (prepared : context.Prepared schema layout meaning rules)
    (atRest : machine.AtRest schema model recent)
    (fits : ∀ plan ∈ context.rules, plan.Fits layout .rounds machine.workspace)
    {plans : List RulePlan} (fromRules : ∀ plan ∈ plans, plan ∈ context.rules)
    (covered : Suffices meaning rules plans model recent) (count : Nat) :
    LeavesWithRoom (context.roundsFor count plans) machine
      (fun deltas later => deltas.length = count ∧
        Machine.Follows schema layout meaning rules model deltas later machine)
      fun _ _ => True := by
  induction count generalizing machine model recent plans with
  | zero =>
      refine .pure ⟨rfl, ⟨recent, atRest⟩, ⟨.refl _, fun _ _ _ _ provides => provides⟩, rfl, rfl⟩
  | succ count ih =>
      have first := round_leaves prepared atRest (fun plan member => fits plan (fromRules plan member))
        covered
      refine .bind (first.mono (fun _ _ done => done) fun _ _ _ => trivial)
        (fun _ => .bind (interns_roundsFor _ _) fun _ => .pure) ?_
      rintro added middle ⟨fresh, advances⟩
      have others := ih advances.atRest
        (fun plan member => (fits plan member).keep advances.keeps)
        (fun plan member => (List.mem_filter.mp member).1)
        (prepared.implements.suffices_later advances.caughtUp advances.fresh_subset)
      refine others.bind (fun _ => .pure) ?_
      rintro deltas later ⟨rfl, follows⟩
      obtain ⟨last, lastAtRest⟩ := follows.atRest
      refine .pure ⟨rfl, ⟨last, ?_⟩, follows.keeps.trans advances.keeps, ?_, ?_⟩
      · rw [naive_naiveStep] at lastAtRest
        exact lastAtRest
      · rw [List.length_cons, List.range_succ_eq_map, List.map_cons, List.map_map]
        congr 1
        · exact advances.added_eq
        · rw [follows.deltas_eq]
          simp only [List.length_map, List.length_range]
          exact List.map_congr_left fun rounds _ => naiveGrowth_naiveStep model rounds
      · rw [follows.total, advances.total, List.sum_cons]
        omega

/-- Rounds that stop have come to the model of some steps of naive evaluation, and nothing of the round
that was under way is visible. -/
theorem lists_of_roundsFor_eq_error (prepared : context.Prepared schema layout meaning rules)
    (atRest : machine.AtRest schema model recent)
    (fits : ∀ plan ∈ context.rules, plan.Fits layout .rounds machine.workspace)
    {plans : List RulePlan} (fromRules : ∀ plan ∈ plans, plan ∈ context.rules)
    (covered : Suffices meaning rules plans model recent) {count : Nat} {stop : Stop}
    {later : Machine} (stopped : context.roundsFor count plans machine = .error stop later)
    (room : later.workspace.terms.HasRoom) :
    ∃ done deltas middle, context.roundsFor done plans machine = .ok deltas middle ∧
      context.roundsFor (done + 1) plans machine = .error stop later ∧
        later.workspace.terms.Extends middle.workspace.terms ∧
          later.workspace.Lists (naive meaning rules model done) := by
  induction count generalizing machine model recent plans with
  | zero => cases stopped
  | succ count ih =>
      have first := round_leaves prepared atRest (fun plan member => fits plan (fromRules plan member))
        covered
      rcases bind_eq_error.mp stopped with failed | ⟨added, next, ran, stopped⟩
      · exact ⟨0, [], machine, rfl, bind_eq_error.mpr (.inl failed),
          (interns_round plans machine).of_error failed, first.of_error failed room⟩
      · rcases bind_eq_error.mp stopped with stopped | ⟨_, _, _, ended⟩
        · have grown := (interns_roundsFor count context.deltaRules next).of_error stopped
          obtain ⟨fresh, advances⟩ := first.of_ok ran (grown.hasRoom room)
          obtain ⟨done, deltas, middle, ranDone, stoppedNext, grown, lists⟩ := ih advances.atRest
            (fun plan member => (fits plan member).keep advances.keeps)
            (fun plan member => (List.mem_filter.mp member).1)
            (prepared.implements.suffices_later advances.caughtUp advances.fresh_subset) stopped
          rw [naive_naiveStep] at lists
          refine ⟨done + 1, added :: deltas, middle, ?_, ?_, grown, lists⟩
          · exact bind_eq_ok.mpr ⟨added, next, ran, bind_eq_ok.mpr ⟨deltas, middle, ranDone, rfl⟩⟩
          · exact bind_eq_error.mpr
              (.inr ⟨added, next, ran, bind_eq_error.mpr (.inl stoppedNext)⟩)
        · cases ended

/-- Rounds end with the first one that derives nothing new. -/
theorem roundsFor_of_rounds {fuel : Nat} {plans : List RulePlan} {deltas : List Nat}
    {later : Machine} (ended : context.rounds fuel plans machine = .ok deltas later) :
    context.roundsFor deltas.length plans machine = .ok deltas later ∧
      ∃ others, deltas = others ++ [0] ∧ 0 ∉ others := by
  induction fuel generalizing plans machine deltas later with
  | zero => cases ended
  | succ fuel ih =>
      obtain ⟨added, middle, ran, ended⟩ := bind_eq_ok.mp ended
      split at ended
      · next nothing =>
          subst nothing
          cases ended
          refine ⟨?_, [], rfl, by simp⟩
          exact bind_eq_ok.mpr ⟨0, later, ran, rfl⟩
      · next something =>
          obtain ⟨others, last, ranOthers, ended⟩ := bind_eq_ok.mp ended
          cases ended
          obtain ⟨ranFor, front, frontEq, nonzero⟩ := ih ranOthers
          refine ⟨?_, added :: front, by rw [frontEq, List.cons_append], ?_⟩
          · exact bind_eq_ok.mpr ⟨added, middle, ran,
              bind_eq_ok.mpr ⟨others, later, ranFor, rfl⟩⟩
          · simp [nonzero, Ne.symm something]

/-- Rounds in which a task has failed are the first rounds up to the failure. -/
theorem exists_roundsFor_eq_error {fuel : Nat} {plans : List RulePlan} {error : EvalError}
    {later : Machine} (failed : context.rounds fuel plans machine = .error (.failed error) later) :
    ∃ count, context.roundsFor count plans machine = .error (.failed error) later := by
  induction fuel generalizing plans machine with
  | zero => cases failed
  | succ fuel ih =>
      rcases bind_eq_error.mp failed with failed | ⟨added, next, ran, failed⟩
      · exact ⟨1, bind_eq_error.mpr (.inl failed)⟩
      · split at failed
        · cases failed
        · rcases bind_eq_error.mp failed with failed | ⟨_, _, _, ended⟩
          · obtain ⟨count, failed⟩ := ih failed
            exact ⟨count + 1, bind_eq_error.mpr (.inr ⟨added, next, ran,
              bind_eq_error.mpr (.inl failed)⟩)⟩
          · cases ended

/-! ## The first and the last round -/

theorem atRest_seed {workspace : Workspace} (atRest : workspace.AtRest schema model recent)
    (symbolsEq : layout.symbols = context.symbols)
    (derived : ∀ symbol ∈ layout.symbols, symbol ∈ schema.derived) :
    (context.seed workspace).AtRest schema model {fact ∈ model | fact.1 ∈ layout.symbols} ∧
      (context.seed workspace).Keeps .rounds workspace := by
  have cleared := atRest.delta_usable.clear
  have merged := FactStore.merged_mergeInto atRest.db_usable cleared.valid layout.symbols_nodup
    fun symbol (member : symbol ∈ context.symbols) => symbolsEq ▸ member
  -- The deltas have been emptied, so that they hold just what is merged into them.
  have holds_iff : ∀ symbol tuple, (context.seed workspace).delta.Holds symbol tuple ↔
      symbol ∈ layout.symbols ∧ workspace.db.Holds symbol tuple := by
    intro symbol tuple
    rw [symbolsEq]
    constructor
    · intro holds
      rcases (merged.holds_iff symbol tuple).mp holds with before | ⟨member, holds, -⟩
      · exact absurd before atRest.delta_usable.valid.not_holds_clear
      · exact ⟨member, holds⟩
    · rintro ⟨member, holds⟩
      refine (merged.holds_iff symbol tuple).mpr (.inr ⟨member, holds, ?_⟩)
      rw [FactStore.registers_clear]
      exact atRest.delta_registers symbol (derived symbol (symbolsEq ▸ member))
  have provides_iff : ∀ symbol number pattern,
      (context.seed workspace).delta.Provides symbol number pattern ↔
        workspace.delta.Provides symbol number pattern := by
    intro symbol number pattern
    exact merged.grows.provides_iff.trans FactStore.provides_clear
  refine ⟨{ atRest with
    delta_usable := ⟨merged.valid, merged.grows.limits_eq ▸ cleared.bounded⟩
    nextDelta_usable := atRest.nextDelta_usable.clear
    delta_shows := ⟨?_, ?_⟩
    collected := fun symbol tuple => atRest.nextDelta_usable.valid.not_holds_clear
    delta_registers := ?_
    nextDelta_registers := ?_
    twins := ?_ }, .refl _, ?_⟩
  · intro symbol tuple holds
    obtain ⟨member, holds⟩ := (holds_iff symbol tuple).mp holds
    obtain ⟨values, denotes, known⟩ := atRest.db_shows.within symbol tuple holds
    exact ⟨values, denotes, known, member⟩
  · rintro fact ⟨known, member⟩
    obtain ⟨tuple, holds, denotes⟩ := atRest.db_shows.includes fact known
    exact ⟨tuple, (holds_iff _ _).mpr ⟨member, holds⟩, denotes⟩
  · intro symbol member
    refine merged.grows.registers_iff.mpr ?_
    rw [FactStore.registers_clear]
    exact atRest.delta_registers symbol member
  · intro symbol member
    exact FactStore.registers_clear.mpr (atRest.nextDelta_registers symbol member)
  · intro symbol number pattern
    rw [provides_iff, atRest.twins]
    exact FactStore.provides_clear.symm
  · intro delta symbol number pattern provides
    cases delta
    · exact provides
    · exact (provides_iff symbol number pattern).mpr provides

theorem atRest_clear {workspace : Workspace} (atRest : workspace.AtRest schema model recent) :
    ({ workspace with delta := workspace.delta.clear } : Workspace).AtRest schema model ∅ where
  distinct := atRest.distinct
  db_usable := atRest.db_usable
  delta_usable := atRest.delta_usable.clear
  nextDelta_usable := atRest.nextDelta_usable
  db_shows := atRest.db_shows
  delta_shows :=
    ⟨fun _ _ holds => absurd holds atRest.delta_usable.valid.not_holds_clear, fun _ => False.elim⟩
  collected := atRest.collected
  db_registers := atRest.db_registers
  delta_registers symbol member :=
    FactStore.registers_clear.mpr (atRest.delta_registers symbol member)
  nextDelta_registers := atRest.nextDelta_registers
  twins symbol number pattern := FactStore.provides_clear.trans (atRest.twins symbol number pattern)

/-! ## A stratum in rounds -/

theorem firstRounds_leaves (prepared : context.Prepared schema layout meaning rules)
    (atRest : machine.AtRest schema model recent)
    (fits : ∀ plan ∈ context.rules, plan.Fits layout .rounds machine.workspace) (count : Nat) :
    LeavesWithRoom (context.firstRounds count) machine
      (fun deltas later => deltas.length = count ∧
        Machine.Follows schema layout meaning rules model deltas later machine)
      fun _ _ => True := by
  obtain ⟨seeded, keeps⟩ := atRest_seed atRest.stores prepared.symbols_eq prepared.derived
  let start : Machine := { machine with workspace := context.seed machine.workspace }
  have startAtRest : start.AtRest schema model {fact ∈ model | fact.1 ∈ layout.symbols} :=
    ⟨atRest.idle, seeded⟩
  refine .modifyGet_bind ?_
  have ran : LeavesWithRoom (context.roundsFor count context.rules) start _ _ :=
    roundsFor_leaves prepared startAtRest (fun plan member => (fits plan member).keep keeps)
      (fun _ member => member) (prepared.implements.suffices_first model) count
  refine ran.mono ?_ fun _ _ _ => trivial
  rintro deltas later ⟨lengthEq, follows⟩
  exact ⟨lengthEq, { follows with keeps := follows.keeps.trans keeps }⟩

/-- A stratum is evaluated by as many rounds as it takes until one derives nothing new. -/
theorem firstRounds_of_evaluateRounds {rank : Nat} {stats : StratumStats} {later : Machine}
    (ended : context.evaluateRounds rank machine = .ok stats later) :
    ∃ last, context.firstRounds stats.roundDeltas.length machine = .ok stats.roundDeltas last ∧
      later = { last with
        workspace := { last.workspace with delta := last.workspace.delta.clear } } ∧
      stats = { rank, roundDeltas := stats.roundDeltas, sweeps := 0,
                derived := stats.roundDeltas.sum } ∧
      ∃ others, stats.roundDeltas = others ++ [0] ∧ 0 ∉ others := by
  obtain ⟨_, start, seeded, ended⟩ := bind_eq_ok.mp ended
  obtain ⟨deltas, last, ran, ended⟩ := bind_eq_ok.mp ended
  obtain ⟨_, cleared, clearEq, ended⟩ := bind_eq_ok.mp ended
  cases clearEq
  cases ended
  obtain ⟨ranFor, others⟩ := roundsFor_of_rounds ran
  exact ⟨last, bind_eq_ok.mpr ⟨_, start, seeded, ranFor⟩, rfl, rfl, others⟩

/-- A stratum in which a task fails has completed some rounds, and what these have stored is there. -/
theorem firstRounds_of_evaluateRounds_eq_error
    (prepared : context.Prepared schema layout meaning rules)
    (atRest : machine.AtRest schema model recent)
    (fits : ∀ plan ∈ context.rules, plan.Fits layout .rounds machine.workspace) {rank : Nat}
    {error : EvalError} {later : Machine}
    (failed : context.evaluateRounds rank machine = .error (.failed error) later)
    (room : later.workspace.terms.HasRoom) :
    ∃ done deltas middle, context.firstRounds done machine = .ok deltas middle ∧
      context.firstRounds (done + 1) machine = .error (.failed error) later ∧
        later.workspace.terms.Extends middle.workspace.terms ∧
          later.workspace.Lists (naive meaning rules model done) := by
  obtain ⟨seeded, keeps⟩ := atRest_seed atRest.stores prepared.symbols_eq prepared.derived
  let start : Machine := { machine with workspace := context.seed machine.workspace }
  have startAtRest : start.AtRest schema model {fact ∈ model | fact.1 ∈ layout.symbols} :=
    ⟨atRest.idle, seeded⟩
  have failedRounds : context.rounds context.fuel context.rules start =
      .error (.failed error) later := by
    rcases bind_eq_error.mp failed with failed | ⟨_, _, started, failed⟩
    · cases failed
    · cases started
      rcases bind_eq_error.mp failed with failed | ⟨_, _, _, failed⟩
      · exact failed
      · rcases bind_eq_error.mp failed with failed | ⟨_, _, _, failed⟩
        · cases failed
        · cases failed
  obtain ⟨count, failedFor⟩ := exists_roundsFor_eq_error failedRounds
  obtain ⟨done, deltas, middle, ran, failedNext, grown, lists⟩ := lists_of_roundsFor_eq_error
    prepared startAtRest (fun plan member => (fits plan member).keep keeps) (fun _ member => member)
    (prepared.implements.suffices_first model) failedFor room
  exact ⟨done, deltas, middle, bind_eq_ok.mpr ⟨(), start, rfl, ran⟩,
    bind_eq_error.mpr (.inr ⟨(), start, rfl, failedNext⟩), grown, lists⟩

/-- What is derived in the relations of a stratum is finite. -/
theorem finite_of_atRest (layout : Layout) (atRest : machine.AtRest schema model recent) :
    ({fact ∈ model | fact.1 ∈ layout.symbols} : Model).Finite := by
  have stores := atRest.stores
  have finite := (FactStore.ncard_facts stores.db_usable stores.distinct stores.db_shows.within
    layout.symbols_nodup).1
  rwa [stores.db_shows.model_eq] at finite

/-- A step of naive evaluation that adds no facts is the last one. -/
theorem naive_succ_of_growth_eq_zero (heads : ∀ rule ∈ rules, rule.head.symbol ∈ layout.symbols)
    {rounds : Nat}
    (finite : ({fact ∈ naive meaning rules model (rounds + 1) | fact.1 ∈ layout.symbols} :
      Model).Finite)
    (nothing : naiveGrowth meaning rules model rounds = 0) :
    naive meaning rules model (rounds + 1) = naive meaning rules model rounds := by
  have newFinite : (consequences meaning rules (naive meaning rules model rounds)
      (naive meaning rules model rounds) \ naive meaning rules model rounds).Finite := by
    refine finite.subset ?_
    rintro fact ⟨derived, -⟩
    refine ⟨.inr derived, ?_⟩
    obtain ⟨rule, member, _, _, -, -, rfl⟩ := derived
    exact heads rule member
  have empty := (Set.ncard_eq_zero newFinite).mp nothing
  exact Set.union_eq_left.mpr (Set.sdiff_eq_empty.mp empty)

/-- The rounds of a stratum compute the least model of its rules and count what they add. -/
theorem evaluateRounds_leaves (prepared : context.Prepared schema layout meaning rules)
    (outside : NegatesOutside rules) (atRest : machine.AtRest schema model recent)
    (fits : ∀ plan ∈ context.rules, plan.Fits layout .rounds machine.workspace) (rank : Nat) :
    LeavesWithRoom (context.evaluateRounds rank) machine
      (fun stats later => later.AtRest schema (leastModel meaning rules model model) ∅ ∧
        later.workspace.Keeps .rounds machine.workspace ∧ stats.rank = rank ∧
        later.workspace.db.total layout.symbols =
          machine.workspace.db.total layout.symbols + stats.derived)
      fun _ _ => True := by
  refine .of_ended fun stats later ended room => ?_
  obtain ⟨last, ran, rfl, statsEq, others, deltasEq, -⟩ := firstRounds_of_evaluateRounds ended
  obtain ⟨-, follows⟩ := (firstRounds_leaves prepared atRest fits _).of_ok ran room
  obtain ⟨fresh, lastAtRest⟩ := follows.atRest
  have lengthEq : stats.roundDeltas.length = others.length + 1 := by simp [deltasEq]
  have nothing : naiveGrowth meaning rules model others.length = 0 := by
    have atLast : stats.roundDeltas[others.length]? = some 0 := by simp [deltasEq]
    rw [follows.deltas_eq, lengthEq] at atLast
    simpa using atLast
  rw [lengthEq] at lastAtRest
  have fixed := naive_succ_of_growth_eq_zero prepared.heads
    (finite_of_atRest layout lastAtRest) nothing
  rw [fixed, naive_eq_leastModel outside fixed] at lastAtRest
  refine ⟨⟨lastAtRest.idle, atRest_clear lastAtRest.stores⟩, ⟨follows.keeps.terms, ?_⟩,
    congrArg StratumStats.rank statsEq, ?_⟩
  · intro delta symbol number pattern provides
    have kept := follows.keeps.provides delta symbol number pattern provides
    cases delta
    · exact kept
    · exact FactStore.provides_clear.mpr kept
  · have derivedEq : stats.derived = stats.roundDeltas.sum := by rw [statsEq]
    rw [derivedEq]
    exact follows.total

end FixpointContext

end Datalog
