import Datalog.Proofs.Engine.Strata

/-!
# Running an evaluation

A run evaluates all strata in order, so that the main store shows the perfect model of the program at
the end.  The relations of a stratum grow while the stratum is evaluated and at no other time.
-/

namespace Datalog

namespace Evaluation

/-- The rows of values that the tuples of a relation denote. -/
def contents (evaluation : Evaluation) (symbol : RelationSymbol) : Set (List Value) :=
  {values | ∃ tuple ∈ evaluation.db.tuplesOf symbol, evaluation.terms.DenotesAll tuple values}

/-- Every relation lists the facts of a model: each of its tuples denotes a row of values, no row is
listed twice, and the rows are those of the model. -/
structure Displays (evaluation : Evaluation) (model : Model) : Prop where
  denoted : ∀ symbol, ∀ tuple ∈ evaluation.db.tuplesOf symbol,
    ∃ values, evaluation.terms.DenotesAll tuple values
  once : ∀ symbol, (evaluation.db.tuplesOf symbol).Nodup
  contents_eq : ∀ symbol, evaluation.contents symbol = {values | (symbol, values) ∈ model}

/-- The statistics of a stratum tell by how many tuples its relations have grown. -/
def Counts (start later : Evaluation) (stats : StratumStats) (stratum : Stratum) : Prop :=
  stats.rank = stratum.rank ∧
    later.db.total stratum.symbols = start.db.total stratum.symbols + stats.derived

variable {meaning : Interpretation} {program : Program} {strata : List Stratum}
  {functions : Registry} {config : Config} {schedule : Schedule} {resources : Planner.Resources}
  {evaluation start later : Evaluation} {stratum : Stratum} {model model' : Model}

/-- What the main store shows is what its relations list. -/
theorem displays_of_lists (lists : later.machine.workspace.Lists model) : later.Displays model := by
  have bounded := lists.usable.bounded
  have mem_tuplesOf : ∀ {symbol : RelationSymbol} {tuple : Tuple},
      tuple ∈ later.db.tuplesOf symbol ↔ later.db.Holds symbol tuple :=
    FactStore.mem_tuplesOf bounded
  refine ⟨fun symbol tuple member => ?_, fun symbol => ?_, fun symbol => ?_⟩
  · obtain ⟨values, denotes, -⟩ := lists.showing.within symbol tuple (mem_tuplesOf.mp member)
    exact ⟨values, denotes⟩
  · exact lists.usable.valid.nodup_tuplesOf bounded
  · ext values
    constructor
    · rintro ⟨tuple, member, denotes⟩
      obtain ⟨values', denotes', known⟩ :=
        lists.showing.within symbol tuple (mem_tuplesOf.mp member)
      obtain rfl := denotes.unique denotes'
      exact known
    · intro known
      obtain ⟨tuple, holds, denotes⟩ := lists.showing.includes (symbol, values) known
      exact ⟨tuple, mem_tuplesOf.mpr holds, denotes⟩

theorem displays_of_atRest {schema : Schema} {recent : Model}
    (atRest : later.machine.AtRest schema model recent) : later.Displays model :=
  displays_of_lists atRest.stores.lists

/-! ## Strata that have been evaluated -/

theorem ofRunM_eq_ok {α : Type} {step : RunM α} {value : α}
    (ran : ofRunM step start = .ok value later) :
    ∃ machine, step start.machine = .ok value machine ∧ later = { start with machine } := by
  unfold ofRunM at ran
  split at ran
  · next outcome =>
      cases ran
      exact ⟨_, outcome, rfl⟩
  · cases ran

theorem evaluate_of_runStratum {fuel : Nat} {stats : StratumStats}
    (ran : runStratum fuel stratum start = .ok stats later) :
    (if start.config.eager then
        (start.fixpointContext fuel stratum).evaluateEagerly stratum.rank
      else
        (start.fixpointContext fuel stratum).evaluateRounds stratum.rank) start.machine =
      .ok stats later.machine := by
  obtain ⟨_, _, got, ran⟩ := bind_eq_ok.mp ran
  cases got
  obtain ⟨_, between, ranStep, ran⟩ := bind_eq_ok.mp ran
  obtain ⟨_, _, logged, ran⟩ := bind_eq_ok.mp ran
  cases logged
  cases ran
  obtain ⟨machine, ended, rfl⟩ := ofRunM_eq_ok ranStep
  exact ended

namespace Reached

theorem displays (reached : Reached program config schedule resources evaluation model later) :
    later.Displays model :=
  displays_of_atRest reached.atRest

theorem total_eq (reached : Reached program config schedule resources evaluation model start)
    (reached' : Reached program config schedule resources evaluation model' later)
    {symbols : List RelationSymbol} (distinct : symbols.Nodup)
    (same : ∀ fact : GroundFact, fact.1 ∈ symbols → (fact ∈ model' ↔ fact ∈ model)) :
    later.db.total symbols = start.db.total symbols := by
  have before := reached.atRest.stores
  have after := reached'.atRest.stores
  have counted := (FactStore.ncard_facts before.db_usable before.distinct before.db_shows.within
    distinct).2
  have counted' := (FactStore.ncard_facts after.db_usable after.distinct after.db_shows.within
    distinct).2
  rw [before.db_shows.model_eq] at counted
  rw [after.db_shows.model_eq] at counted'
  have sameFacts : ({fact ∈ model' | fact.1 ∈ symbols} : Model) = {fact ∈ model | fact.1 ∈ symbols} :=
    Set.ext fun fact => and_congr_left fun member => same fact member
  exact counted'.symm.trans ((congrArg Set.ncard sameFacts).trans counted)

end Reached

/-- Groups leave the relations of other groups as they are. -/
theorem mem_perfectModel_append_iff (before after : List (List RelationSymbol)) {fact : GroundFact}
    (elsewhere : fact.1 ∉ after.flatten) :
    fact ∈ program.perfectModel meaning (before ++ after) ↔
      fact ∈ program.perfectModel meaning before :=
  ⟨fun known => Program.mem_perfectModel_of_append known fun late => absurd late elsewhere,
    fun known => Program.perfectModel_mono before after known⟩

namespace Faithful

/-- Evaluating strata one after another leads to the perfect model of all that have been evaluated. -/
theorem runStrata_leaves
    (faithful : Faithful meaning program strata functions config schedule resources evaluation)
    {before chosen : List Stratum} (members : ∀ stratum ∈ chosen, stratum ∈ strata)
    (disjoint : (chosen.map (·.symbols)).Pairwise List.Disjoint)
    (reached : Reached program config schedule resources evaluation
      (program.perfectModel meaning (before.map (·.symbols))) start) (fuel : Nat) :
    LeavesWithRoom (runStrata fuel chosen) start
      (fun stats later => Reached program config schedule resources evaluation
          (program.perfectModel meaning ((before ++ chosen).map (·.symbols))) later ∧
        List.Forall₂ (Counts start later) stats chosen)
      fun _ _ => True := by
  induction chosen generalizing before start with
  | nil =>
      refine .pure ⟨?_, .nil⟩
      rwa [List.append_nil]
  | cons stratum chosen ih =>
      rw [List.map_cons, List.pairwise_cons] at disjoint
      obtain ⟨apart, disjoint⟩ := disjoint
      have member := members stratum List.mem_cons_self
      have first := faithful.runStratum_leaves member reached fuel
      refine first.bind (fun _ => .bind (interns_runStrata fuel chosen) fun _ => .pure) ?_
      rintro stats middle evaluated
      have middleReached : Reached program config schedule resources evaluation
          (program.perfectModel meaning ((before ++ [stratum]).map (·.symbols))) middle := by
        rw [List.map_append, List.map_singleton, Program.perfectModel_append]
        exact evaluated.reached
      have others := ih (fun other inChosen => members other (List.mem_cons_of_mem _ inChosen))
        disjoint middleReached
      refine others.bind (fun _ => .pure) ?_
      rintro othersStats later ⟨laterReached, counts⟩
      rw [List.append_assoc, List.singleton_append] at laterReached
      refine .pure ⟨laterReached, .cons ⟨evaluated.rank_eq, ?_⟩ ?_⟩
      · -- The other strata do not touch the relations of the first one.
        rw [← evaluated.total]
        refine middleReached.total_eq laterReached (faithful.layers.nodup stratum member) ?_
        intro fact inStratum
        rw [List.append_cons, List.map_append]
        refine mem_perfectModel_append_iff _ _ fun late => ?_
        obtain ⟨group, groupMember, inGroup⟩ := List.mem_flatten.mp late
        exact apart group groupMember inStratum inGroup
      · -- Nor does the first one touch those of the others.
        refine List.forall₂_iff_get.mpr ⟨counts.length_eq, fun position bound bound' => ?_⟩
        obtain ⟨rankEq, total⟩ := (List.forall₂_iff_get.mp counts).2 position bound bound'
        refine ⟨rankEq, total.trans (congrArg (· + _) ?_)⟩
        have inChosen := List.get_mem chosen ⟨position, bound'⟩
        have otherMember := members _ (List.mem_cons_of_mem _ inChosen)
        refine reached.total_eq middleReached (faithful.layers.nodup _ otherMember) ?_
        intro fact inOther
        rw [List.map_append, List.map_singleton]
        refine mem_perfectModel_append_iff _ _ fun inStratum => ?_
        rw [List.flatten_singleton] at inStratum
        exact apart _ (List.mem_map_of_mem inChosen) inStratum inOther

/-- A run leads to the perfect model of the program and counts what every stratum has added. -/
theorem run_leaves
    (faithful : Faithful meaning program strata functions config schedule resources evaluation)
    (disjoint : (strata.map (·.symbols)).Pairwise List.Disjoint)
    (room : evaluation.terms.HasRoom) (fuel : Nat) :
    LeavesWithRoom (run fuel) evaluation
      (fun stats later => Reached program config schedule resources evaluation
          (program.perfectModel meaning (strata.map (·.symbols))) later ∧
        List.Forall₂ (Counts evaluation later) stats strata)
      fun _ _ => True := by
  have startReached : Reached program config schedule resources evaluation
      (program.perfectModel meaning (([] : List Stratum).map (·.symbols))) evaluation :=
    faithful.reached_start room
  have ran := faithful.runStrata_leaves (fun _ member => member) disjoint startReached fuel
  refine .get_bind ?_
  rw [faithful.setUp.stats_eq, faithful.setUp.strata_eq]
  refine ran.bind (fun _ => .bind (.modify fun _ => rfl) fun _ => .pure) ?_
  rintro stats later ⟨reached, counts⟩
  refine .modifyGet_bind (.pure ⟨?_, counts⟩)
  exact { reached with }

end Faithful

end Evaluation

end Datalog
