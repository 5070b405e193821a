import Datalog.Proofs.Evaluation.Eager
import Datalog.Proofs.Evaluation.Load
import Datalog.Proofs.Planning.Strata

/-!
# Evaluating all strata

Strata are evaluated one after another.  Before each of them the main store shows the perfect model of
those that have been evaluated, and the stratum adds the least model of its own rules.
-/

namespace Datalog

/-- Which relations the stores of a program have. -/
def Program.schema (program : Program) : Schema where
  declared := program.relations
  derived := program.ruleSymbols
  derived_subset _ member := (Program.mem_ruleSymbols.mp member).1

/-- The tuples of a view can be counted in a machine word. -/
def Config.Bounded (config : Config) : Prop :=
  config.maxArraySize.toNat + 1 < UInt64.size

instance (config : Config) : Decidable config.Bounded :=
  inferInstanceAs (Decidable (config.maxArraySize.toNat + 1 < UInt64.size))

theorem Planner.Resources.atRest_workspace {resources : Planner.Resources} {program : Program}
    {config : Config} (valid : resources.Valid)
    (main : resources.main.Extends (.ofSymbols program.relations))
    (delta : resources.delta.Extends (.ofSymbols program.ruleSymbols)) (bounded : config.Bounded)
    (schedule : Schedule) :
    (resources.workspace config schedule).AtRest program.schema ∅ ∅ where
  distinct := valid.distinct
  db_usable := ⟨StorePlan.valid_build valid.main, bounded⟩
  delta_usable := ⟨StorePlan.valid_build valid.delta, bounded⟩
  nextDelta_usable := ⟨StorePlan.valid_build valid.delta, bounded⟩
  db_shows := ⟨fun _ _ holds => absurd holds (StorePlan.not_holds_build valid.main),
    fun _ => False.elim⟩
  delta_shows := ⟨fun _ _ holds => absurd holds (StorePlan.not_holds_build valid.delta),
    fun _ => False.elim⟩
  collected _ _ := StorePlan.not_holds_build valid.delta
  db_registers symbol member := by
    have member : symbol ∈ program.relations := member
    rw [workspace, StorePlan.registers_build, main.relations, StorePlan.patterns?_ofSymbols,
      if_pos member]
    rfl
  delta_registers symbol member := by
    have member : symbol ∈ program.ruleSymbols := member
    rw [workspace, StorePlan.registers_build, delta.relations, StorePlan.patterns?_ofSymbols,
      if_pos member]
    rfl
  nextDelta_registers symbol member := by
    have member : symbol ∈ program.ruleSymbols := member
    rw [workspace, StorePlan.registers_build, delta.relations, StorePlan.patterns?_ofSymbols,
      if_pos member]
    rfl
  twins _ _ _ := Iff.rfl

namespace Evaluation

/-- What a correct evaluation relies on: it was set up for strata of a well-formed program, its
functions compute an interpretation, and, if it is eager, no rule uses the names of isolated calls. -/
structure Faithful (meaning : Interpretation) (program : Program) (strata : List Stratum)
    (functions : Registry) (config : Config) (schedule : Schedule)
    (resources : Planner.Resources) (evaluation : Evaluation) : Prop where
  setUp : SetUp program strata functions config schedule resources evaluation
  wellFormed : program.WellFormed
  layers : program.Layers strata
  computes : functions.Computes meaning
  bounded : config.Bounded
  avoids : config.eager = true → ∀ rule ∈ program.rules, DeltaRule.AvoidsIsolated rule.occurrences

/-- An evaluation under way: the stores show a model and still have the indices that were planned. -/
structure Reached (program : Program) (config : Config) (schedule : Schedule)
    (resources : Planner.Resources) (evaluation : Evaluation) (model : Model)
    (later : Evaluation) : Prop where
  config_eq : later.config = config
  context_eq : ∀ fuel stratum,
    later.fixpointContext fuel stratum = evaluation.fixpointContext fuel stratum
  atRest : later.machine.AtRest program.schema model ∅
  keeps : ∀ strategy : Strategy, strategy.Suits config →
    later.machine.workspace.Keeps strategy (resources.workspace config schedule)

section

variable {meaning : Interpretation} {program : Program} {strata : List Stratum}
  {functions : Registry} {config : Config} {schedule : Schedule} {resources : Planner.Resources}
  {evaluation start : Evaluation} {stratum : Stratum} {model : Model} {fuel : Nat}

theorem SetUp.plannable
    (setUp : SetUp program strata functions config schedule resources evaluation)
    (layers : program.Layers strata)
    (avoids : config.eager = true → ∀ rule ∈ program.rules, DeltaRule.AvoidsIsolated rule.occurrences)
    (member : stratum ∈ strata) :
    ∀ rule ∈ program.rulesOf stratum.symbols, rule.Plannable config stratum.symbols := by
  intro rule ruleMember
  refine ⟨fun atom => ?_, fun eager => ?_⟩
  · exact Program.not_mem_of_negated (setUp.negatesWithin_eq_false layers member) ruleMember
  · exact avoids eager rule (Program.mem_rulesOf.mp ruleMember).1

/-- The plans of a stratum can be run with any functions that compute the interpretation. -/
theorem SetUp.exists_prepared
    (setUp : SetUp program strata functions config schedule resources evaluation)
    (layers : program.Layers strata) (wellFormed : program.WellFormed)
    (avoids : config.eager = true → ∀ rule ∈ program.rules, DeltaRule.AvoidsIsolated rule.occurrences)
    (member : stratum ∈ strata) {registry : Registry} (computes : registry.Computes meaning)
    (reached : Reached program config schedule resources evaluation model start) (fuel : Nat) :
    ∃ layout : Layout, layout.symbols = stratum.symbols ∧
      ({ start.fixpointContext fuel stratum with functions := registry } : FixpointContext).Prepared
        program.schema layout meaning (program.rulesOf stratum.symbols) ∧
      ∀ strategy : Strategy, strategy.Suits config →
        ∀ plan ∈ (start.fixpointContext fuel stratum).rules,
          plan.Fits layout strategy start.machine.workspace := by
  have plannable := setUp.plannable layers avoids member
  obtain ⟨layout, symbolsEq, fits⟩ := setUp.exists_layout layers.separate member
    (layers.nodup stratum member) plannable wellFormed
  rw [reached.context_eq]
  refine ⟨layout, symbolsEq, ?_, fun strategy suits plan planMember => ?_⟩
  · exact
      { computes := computes
        symbols_eq := symbolsEq
        derived := symbolsEq ▸ layers.derived stratum member
        heads := fun rule ruleMember => symbolsEq ▸ (Program.mem_rulesOf.mp ruleMember).2
        implements := by
          rw [symbolsEq]
          exact setUp.implements layers.separate member plannable }
  · exact (fits strategy suits plan planMember).keep (reached.keeps strategy suits)

namespace Faithful

theorem negatesWithin_eq_false
    (faithful : Faithful meaning program strata functions config schedule resources evaluation)
    (member : stratum ∈ strata) : program.negatesWithin stratum.symbols = false :=
  faithful.setUp.negatesWithin_eq_false faithful.layers member

theorem negatesOutside
    (faithful : Faithful meaning program strata functions config schedule resources evaluation)
    (member : stratum ∈ strata) : NegatesOutside (program.rulesOf stratum.symbols) :=
  Program.negatesOutside_rulesOf (faithful.negatesWithin_eq_false member)

theorem exists_prepared
    (faithful : Faithful meaning program strata functions config schedule resources evaluation)
    (member : stratum ∈ strata)
    (reached : Reached program config schedule resources evaluation model start) (fuel : Nat) :
    ∃ layout : Layout, layout.symbols = stratum.symbols ∧
      (start.fixpointContext fuel stratum).Prepared program.schema layout meaning
        (program.rulesOf stratum.symbols) ∧
      ∀ strategy : Strategy, strategy.Suits config →
        ∀ plan ∈ (start.fixpointContext fuel stratum).rules,
          plan.Fits layout strategy start.machine.workspace := by
  have computes : (start.fixpointContext fuel stratum).functions.Computes meaning := by
    rw [reached.context_eq]
    change evaluation.functions.Computes meaning
    rw [faithful.setUp.functions_eq]
    exact faithful.computes
  exact faithful.setUp.exists_prepared faithful.layers faithful.wellFormed faithful.avoids member
    computes reached fuel

/-- Once the base facts have been loaded, no stratum has been evaluated. -/
theorem reached_start
    (faithful : Faithful meaning program strata functions config schedule resources evaluation)
    (room : evaluation.terms.HasRoom) :
    Reached program config schedule resources evaluation (program.baseModel meaning) evaluation := by
  have setUp := faithful.setUp
  have empty := Planner.Resources.atRest_workspace setUp.valid setUp.main setUp.delta
    faithful.bounded schedule
  obtain ⟨atRest, keeps⟩ :=
    atRest_loadFacts faithful.computes faithful.wellFormed rfl empty setUp.loaded room
  exact ⟨setUp.config_eq, fun _ _ => rfl, atRest, fun strategy _ => keeps strategy⟩

end Faithful

/-! ## A stratum -/

theorem leaves_ofRunM {α : Type} {step : RunM α} {done : α → Machine → Prop}
    {stopped : Stop → Machine → Prop} (leaves : Leaves step start.machine done stopped) :
    Leaves (ofRunM step) start
      (fun value later => ∃ machine, later = { start with machine } ∧ done value machine)
      (fun stop later => ∃ machine, later = { start with machine } ∧ stopped stop machine) := by
  unfold Leaves at leaves ⊢
  unfold ofRunM
  cases outcome : step start.machine with
  | ok value machine =>
      rw [outcome] at leaves
      exact ⟨machine, rfl, leaves⟩
  | error stop machine =>
      rw [outcome] at leaves
      exact ⟨machine, rfl, leaves⟩

theorem ofRunM_leaves {α : Type} {step : RunM α} {done : α → Machine → Prop}
    {stopped : Stop → Machine → Prop} (leaves : LeavesWithRoom step start.machine done stopped) :
    LeavesWithRoom (ofRunM step) start
      (fun value later => ∃ machine, later = { start with machine } ∧ done value machine)
      (fun stop later => ∃ machine, later = { start with machine } ∧ stopped stop machine) := by
  refine (leaves_ofRunM leaves).mono ?_ ?_
  · rintro value _ ⟨machine, rfl, isDone⟩ room
    exact ⟨machine, rfl, isDone room⟩
  · rintro stop _ ⟨machine, rfl, isStopped⟩ room
    exact ⟨machine, rfl, isStopped room⟩

theorem interns_ofRunM {α : Type} {step : RunM α} (interns : Interns step) :
    Interns (ofRunM step) := by
  intro start
  have grown := interns start.machine
  unfold Leaves at grown ⊢
  unfold ofRunM
  cases outcome : step start.machine with
  | ok value machine =>
      rw [outcome] at grown
      exact grown
  | error stop machine =>
      rw [outcome] at grown
      exact grown

theorem interns_runStratum (fuel : Nat) (stratum : Stratum) : Interns (runStratum fuel stratum) := by
  refine .get_bind fun evaluation => .bind (interns_ofRunM ?_) fun _ => ?_
  · exact .ite (FixpointContext.interns_evaluateEagerly _) (FixpointContext.interns_evaluateRounds _)
  · exact .bind (.modify fun _ => rfl) fun _ => .pure

theorem interns_runStrata (fuel : Nat) (strata : List Stratum) : Interns (runStrata fuel strata) := by
  induction strata with
  | nil => exact .pure
  | cons stratum strata ih =>
      exact .bind (interns_runStratum fuel stratum) fun _ => .bind ih fun _ => .pure

/-- A stratum has been evaluated, and what it added has been counted. -/
structure Evaluated (program : Program) (config : Config) (schedule : Schedule)
    (resources : Planner.Resources) (evaluation : Evaluation) (stratum : Stratum) (model : Model)
    (start : Evaluation) (stats : StratumStats) (later : Evaluation) : Prop where
  reached : Reached program config schedule resources evaluation model later
  rank_eq : stats.rank = stratum.rank
  total : later.db.total stratum.symbols = start.db.total stratum.symbols + stats.derived

theorem Reached.withMachine {next : Model} {machine : Machine}
    (reached : Reached program config schedule resources evaluation model start)
    (atRest : machine.AtRest program.schema next ∅)
    (keeps : ∀ strategy : Strategy, strategy.Suits config →
      machine.workspace.Keeps strategy start.machine.workspace) (log : List LogRecord) :
    Reached program config schedule resources evaluation next { start with machine, log } where
  config_eq := reached.config_eq
  context_eq := reached.context_eq
  atRest := atRest
  keeps strategy suits := (keeps strategy suits).trans (reached.keeps strategy suits)

namespace Faithful

/-- The rules of a stratum are run in rounds or eagerly; either way their least model is reached. -/
theorem fixpoint_leaves
    (faithful : Faithful meaning program strata functions config schedule resources evaluation)
    (member : stratum ∈ strata)
    (reached : Reached program config schedule resources evaluation model start) (fuel : Nat) :
    LeavesWithRoom
      (if start.config.eager then
        (start.fixpointContext fuel stratum).evaluateEagerly stratum.rank
      else
        (start.fixpointContext fuel stratum).evaluateRounds stratum.rank)
      start.machine
      (fun stats later => later.AtRest program.schema
          (leastModel meaning (program.rulesOf stratum.symbols) model model) ∅ ∧
        (∀ strategy : Strategy, strategy.Suits config →
          later.workspace.Keeps strategy start.machine.workspace) ∧
        stats.rank = stratum.rank ∧
        later.workspace.db.total stratum.symbols =
          start.machine.workspace.db.total stratum.symbols + stats.derived)
      fun _ _ => True := by
  obtain ⟨layout, symbolsEq, prepared, fits⟩ := faithful.exists_prepared member reached fuel
  have outside := faithful.negatesOutside member
  rw [reached.config_eq]
  split
  · next eager =>
      have fitsEager := fits (.eager (start.fixpointContext fuel stratum).deltaRules) eager
      refine (FixpointContext.evaluateEagerly_leaves prepared outside reached.atRest fitsEager
        stratum.rank).mono ?_ fun _ _ _ => trivial
      rintro stats later ⟨atRest, keeps, rankEq, total⟩
      refine ⟨atRest, fun strategy suits => ?_, rankEq, symbolsEq ▸ total⟩
      cases strategy with
      | rounds =>
          have suits : config.eager = false := suits
          simp [suits] at eager
      | eager triggered => exact keeps triggered
  · next inRounds =>
      have suitsRounds : Strategy.Suits config .rounds := by
        simpa [Strategy.Suits] using inRounds
      refine (FixpointContext.evaluateRounds_leaves prepared outside reached.atRest
        (fits .rounds suitsRounds) stratum.rank).mono ?_ fun _ _ _ => trivial
      rintro stats later ⟨atRest, keeps, rankEq, total⟩
      refine ⟨atRest, fun strategy suits => ?_, rankEq, symbolsEq ▸ total⟩
      cases strategy with
      | rounds => exact keeps
      | eager triggered => exact absurd suits inRounds

/-- Evaluating a stratum leads to the least model of its rules. -/
theorem runStratum_leaves
    (faithful : Faithful meaning program strata functions config schedule resources evaluation)
    (member : stratum ∈ strata)
    (reached : Reached program config schedule resources evaluation model start) (fuel : Nat) :
    LeavesWithRoom (runStratum fuel stratum) start
      (fun stats later => Evaluated program config schedule resources evaluation stratum
        (leastModel meaning (program.rulesOf stratum.symbols) model model) start stats later)
      fun _ _ => True := by
  have ran : LeavesWithRoom (ofRunM _) start _ fun _ _ => True :=
    (ofRunM_leaves (faithful.fixpoint_leaves member reached fuel)).mono (fun _ _ done => done)
      fun _ _ _ => trivial
  refine .get_bind (.bind ran (fun _ => .bind (.modify fun _ => rfl) fun _ => .pure) ?_)
  rintro stats _ ⟨machine, rfl, atRest, keeps, rankEq, total⟩
  exact .modifyGet_bind (.pure ⟨reached.withMachine atRest keeps _, rankEq, total⟩)

end Faithful

end

end Evaluation

end Datalog
