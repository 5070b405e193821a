import Datalog.Proofs.Engine.Parts
import Datalog.Proofs.Engine.PerfectModel
import Datalog.Proofs.Engine.Termination

/-!
# How much a stratum can derive

Rules that call nothing and build no values pass on the numbers of the ground terms that were loaded and of
their own constants.  So a relation gets at most as many tuples as there are rows of such numbers, and a
stratum takes at most one round more than it derives tuples.
-/

namespace Datalog

theorem FactStore.mem_symbols_of_mem_tuplesOf {store : FactStore} {symbol : RelationSymbol} {tuple : Tuple}
    (listed : tuple ∈ store.tuplesOf symbol) : symbol ∈ store.symbols := by
  cases relationEq : store.relation? symbol with
  | none =>
      have empty : store.masterOf symbol = default := by simp [masterOf, relationEq]
      have nothing : ∀ keys, (default : Index).entriesIn keys = [] := fun _ => rfl
      simp only [tuplesOf, all, empty, Index.all, Index.view, nothing] at listed
      split at listed <;> simp [View.tuples, nothing] at listed
  | some relation =>
      obtain ⟨entry, found, -⟩ := Option.map_eq_some_iff.mp relationEq
      have same : entry.1 = symbol := by simpa using List.find?_some found
      exact same ▸ List.mem_map_of_mem (List.mem_of_find?_eq_some found)

/-- The number of rows over a domain that fit the relations of a stratum. -/
noncomputable def Stratum.capacity {α : Type} (domain : Set α) (stratum : Stratum) : Nat :=
  (stratum.symbols.map fun symbol => domain.ncard ^ symbol.arity).sum

theorem Stratum.capacity_mono {α β : Type} {domain : Set α} {other : Set β}
    (le : domain.ncard ≤ other.ncard) (stratum : Stratum) :
    stratum.capacity domain ≤ stratum.capacity other :=
  List.sum_le_sum fun _ _ => Nat.pow_le_pow_left le _

theorem FixpointContext.length_roundDeltas_le {context : FixpointContext}
    {machine later : Machine} {rank : Nat} {stats : StratumStats}
    (ended : context.evaluateRounds rank machine = .ok stats later) :
    stats.roundDeltas.length ≤ stats.derived + 1 := by
  obtain ⟨_, -, -, statsEq, others, deltasEq, nonzero⟩ := firstRounds_of_evaluateRounds ended
  have positive : ∀ added ∈ others, 1 ≤ added := by
    intro added member
    refine Nat.one_le_iff_ne_zero.mpr ?_
    rintro rfl
    exact nonzero member
  have derivedEq : stats.derived = stats.roundDeltas.sum := congrArg StratumStats.derived statsEq
  have bound := List.length_le_sum_of_one_le others positive
  rw [derivedEq, deltasEq, List.length_append, List.sum_append]
  simpa using bound

namespace Evaluation

variable {program : Program} {functions : Registry} {config : Config} {schedule : Schedule}
  {strata : List Stratum} {resources : Planner.Resources} {evaluation start later : Evaluation}
  {stratum : Stratum} {fuel : Nat} {stats : List StratumStats}

theorem config_runStratum {stratumStats : StratumStats}
    (ran : runStratum fuel stratum start = .ok stratumStats later) :
    later.config = start.config := by
  obtain ⟨_, _, got, ran⟩ := bind_eq_ok.mp ran
  cases got
  obtain ⟨_, between, ranStep, ran⟩ := bind_eq_ok.mp ran
  obtain ⟨_, _, logged, ran⟩ := bind_eq_ok.mp ran
  cases logged
  cases ran
  obtain ⟨machine, -, rfl⟩ := ofRunM_eq_ok ranStep
  rfl

/-- In rounds, no stratum takes more rounds than it derives tuples, up to the last one. -/
theorem length_roundDeltas_le (inRounds : start.config.eager = false)
    (ran : runStrata fuel strata start = .ok stats later) :
    List.Forall₂ (fun stats _ => stats.roundDeltas.length ≤ stats.derived + 1) stats strata := by
  induction strata generalizing start stats with
  | nil =>
      cases ran
      exact .nil
  | cons stratum strata ih =>
      obtain ⟨first, middle, ranFirst, ran⟩ := bind_eq_ok.mp ran
      obtain ⟨others, last, ranOthers, ended⟩ := bind_eq_ok.mp ran
      cases ended
      have evaluated := evaluate_of_runStratum ranFirst
      simp only [inRounds, Bool.false_eq_true, if_false] at evaluated
      exact .cons (FixpointContext.length_roundDeltas_le evaluated)
        (ih ((congrArg Config.eager (config_runStratum ranFirst)).trans inRounds) ranOthers)

/-! ## Ground terms -/

/-- The numbers in the columns of what has been loaded. -/
def loadedIds (evaluation : Evaluation) : Set TermId :=
  {id | ∃ symbol, ∃ tuple ∈ evaluation.db.tuplesOf symbol, id ∈ tuple}

def ruleTerms (program : Program) : Set Term :=
  {term | ∃ rule ∈ program.rules, term ∈ rule.terms}

/-- The numbers of the distinct ground subterms of what has been loaded and of the constants of the
rules. -/
def groundIds (program : Program) (evaluation : Evaluation) (terms : TermStore) : Set TermId :=
  terms.parts evaluation.loadedIds (ruleTerms program)

/-- What is promised of numbers after loading. -/
abbrev grounding (program : Program) (evaluation : Evaluation) : Warrant :=
  .parts evaluation.loadedIds (ruleTerms program)

/-- The plans of rules that build no values pass on ground terms. -/
theorem SetUp.grounded_plan
    (setUp : SetUp program strata functions config schedule resources evaluation)
    (wellFormed : program.WellFormed) (noCall : ∀ rule ∈ program.rules, rule.CallFree)
    (buildsNothing : ∀ rule ∈ program.rules, rule.BuildsNothing) {symbol : RelationSymbol}
    {plan : RulePlan} (member : plan ∈ evaluation.plansFor symbol) :
    plan.Warranted (grounding program evaluation) evaluation.terms := by
  have loaded := setUp.warranted wellFormed Warrant.universal_nothing
    (Warrant.honours_nothing functions)
  obtain ⟨rule, inProgram, symbols, variant, isVariant, planned⟩ := setUp.exists_variant member
  obtain ⟨names, made⟩ := planned.made
  have headEq := planned.head_eq isVariant
  obtain ⟨sameHead, permuted⟩ := planned.toRule_of_callFree isVariant (noCall rule inProgram)
  have callFree := (noCall rule inProgram).of_perm sameHead permuted
  have flat := (buildsNothing rule inProgram).of_perm sameHead permuted
  have warranted : plan.Warranted (grounding program evaluation) resources.terms := by
    refine made.warranted ?_ (fun term inRule => ?_) fun plan term isBuilder isPlanned => ?_
    · rw [RulePlan.headSymbol, headEq]
      exact (wellFormed.heads rule inProgram).length_eq
    · have inProgramTerms : term ∈ ruleTerms program :=
        ⟨rule, inProgram, Rule.mem_terms_of_perm sameHead permuted inRule⟩
      exact Warrant.holdsFor_parts inProgramTerms _
    · exact isPlanned.isFlat (flat term isBuilder) (callFree term (Rule.mem_terms_of_mem_builders isBuilder))
  exact warranted.mono loaded.stores.grown

/-- Once the base facts have been loaded, all numbers are those of ground terms. -/
theorem SetUp.grounded
    (setUp : SetUp program strata functions config schedule resources evaluation)
    (wellFormed : program.WellFormed) (bounded : config.Bounded) :
    evaluation.machine.Warranted (grounding program evaluation) evaluation.machine.workspace := by
  have loaded := setUp.warranted wellFormed Warrant.universal_nothing
    (Warrant.honours_nothing functions)
  have declared : program.schema.declared = program.relations := rfl
  obtain ⟨kept, -⟩ :=
    keepsDeltas_loadFacts wellFormed declared (storesValid_workspace setUp.valid) setUp.loaded
  have limits : evaluation.db.limits.Bounded := by
    change evaluation.machine.workspace.db.limits.Bounded
    rw [loaded.stores.limits_eq]
    exact bounded
  refine ⟨loaded.idle, trivial, .refl _, rfl, ⟨kept.valid.db, ?_⟩, ⟨kept.valid.delta, ?_⟩,
    ⟨kept.valid.nextDelta, ?_⟩⟩
  · intro symbol tuple holds id inTuple _
    exact TermStore.mem_parts_of_mem
      ⟨symbol, tuple, (FactStore.mem_tuplesOf limits).mpr holds, inTuple⟩
  · intro symbol tuple holds
    rw [kept.delta_eq] at holds
    exact absurd holds (StorePlan.not_holds_build setUp.valid.delta)
  · intro symbol tuple holds
    rw [kept.nextDelta_eq] at holds
    exact absurd holds (StorePlan.not_holds_build setUp.valid.delta)

/-! ## Strata -/

/-- An evaluation under way whose relations hold ground terms. -/
structure Inside (program : Program) (evaluation later : Evaluation) : Prop where
  inOrder : InOrder {} evaluation later
  machine : later.machine.Warranted (grounding program evaluation) evaluation.machine.workspace

theorem Inside.total_le (inside : Inside program evaluation later) (room : later.terms.HasRoom)
    (stratum : Stratum) :
    later.db.total stratum.symbols ≤
      stratum.capacity (groundIds program evaluation later.terms) :=
  List.sum_le_sum fun symbol _ => inside.machine.stores.db.countDistinct_le_pow room symbol

/-- A stratum that is evaluated in rounds adds the tuples that it counts, and they consist of ground
terms. -/
theorem runStratum_inside
    (setUp : SetUp program strata functions config schedule resources evaluation)
    (layers : program.Layers strata) (wellFormed : program.WellFormed)
    (inRounds : config.eager = false) (noCall : ∀ rule ∈ program.rules, rule.CallFree)
    (buildsNothing : ∀ rule ∈ program.rules, rule.BuildsNothing) (member : stratum ∈ strata)
    (inside : Inside program evaluation start) (fuel : Nat) :
    Leaves (runStratum fuel stratum) start
      (fun stats later => Inside program evaluation later ∧
        start.db.total stratum.symbols + stats.derived ≤ later.db.total stratum.symbols)
      fun _ _ => True := by
  let context := start.fixpointContext fuel stratum
  have contextEq : context = evaluation.fixpointContext fuel stratum :=
    inside.inOrder.context_eq fuel stratum
  obtain ⟨scope, enough, confined⟩ := setUp.exists_confined layers wellFormed noCall member
  have inScope : context.InScope scope := by
    have confinedThere := (confined _ (le_refl enough)).toInScope
    exact contextEq ▸ ⟨confinedThere.symbols_eq, confinedThere.safe, confinedThere.inScope⟩
  have plans : ∀ plan ∈ context.rules,
      plan.Warranted (grounding program evaluation) evaluation.terms := by
    intro plan isRule
    rw [contextEq] at isRule
    obtain ⟨symbol, -, planMember⟩ := List.mem_flatMap.mp isRule
    exact setUp.grounded_plan wellFormed noCall buildsNothing planMember
  have counts : Leaves (context.evaluateRounds stratum.rank) start.machine _ _ :=
    FixpointContext.evaluateRounds_counts inScope stratum.rank inside.inOrder.machine
  have warranted : Leaves (context.evaluateRounds stratum.rank) start.machine _ _ :=
    (FixpointContext.maintains_warranted (Warrant.honours_parts _ _ context.functions)
      (by simp [Strategy.triggered])).evaluateRounds plans stratum.rank inside.machine
  have eagerEq : start.config.eager = false := by
    rw [inside.inOrder.config_eq, setUp.config_eq, inRounds]
  unfold runStratum
  rw [leaves_bind, leaves_get]
  simp only [eagerEq, Bool.false_eq_true, if_false]
  refine ((leaves_ofRunM (counts.and warranted)).mono (fun _ _ done => done)
    fun _ _ _ => trivial).bind ?_
  rintro stats _ ⟨machine, rfl, ⟨inOrder, total⟩, isWarranted⟩
  rw [← inScope.symbols_eq] at total
  exact ⟨⟨{ inside.inOrder.withMachine inOrder with }, isWarranted⟩, total⟩

/-- In rounds, no stratum derives more tuples than there are rows of ground terms. -/
theorem runStrata_inside
    (setUp : SetUp program strata functions config schedule resources evaluation)
    (layers : program.Layers strata) (wellFormed : program.WellFormed)
    (inRounds : config.eager = false) (noCall : ∀ rule ∈ program.rules, rule.CallFree)
    (buildsNothing : ∀ rule ∈ program.rules, rule.BuildsNothing) {chosen : List Stratum}
    (members : ∀ stratum ∈ chosen, stratum ∈ strata) (inside : Inside program evaluation start)
    (fuel : Nat) :
    LeavesWithRoom (runStrata fuel chosen) start
      (fun stats later => List.Forall₂ (fun stats stratum =>
        stats.derived ≤ stratum.capacity (groundIds program evaluation later.terms)) stats chosen)
      fun _ _ => True := by
  induction chosen generalizing start with
  | nil => exact .pure .nil
  | cons stratum chosen ih =>
      obtain ⟨here, there⟩ := List.forall_mem_cons.mp members
      refine .bind (.of_leaves (runStratum_inside setUp layers wellFormed inRounds noCall
        buildsNothing here inside fuel))
        (fun _ => .bind (interns_runStrata fuel chosen) fun _ => .pure) ?_
      rintro first middle ⟨middleInside, total⟩
      have others : LeavesWithRoom (runStrata fuel chosen) middle _ _ :=
        (ih there middleInside).grown (interns_runStrata fuel chosen)
      refine .bind (others.mono (fun _ _ done => done) fun _ _ _ => trivial) (fun _ => .pure) ?_
      rintro stats last ⟨bounds, grown⟩ room
      have full : middle.db.total stratum.symbols ≤
          stratum.capacity (groundIds program evaluation last.terms) :=
        (middleInside.total_le (grown.hasRoom room) stratum).trans (stratum.capacity_mono
          (Set.ncard_le_ncard (TermStore.parts_mono grown) (Set.toFinite _)))
      exact .cons (by omega) bounds

/-! ## Values -/

/-- The distinct ground subterms of what has been loaded and of the constants of the rules, as values. -/
def groundTerms (program : Program) (evaluation : Evaluation) : Set Value :=
  {part | (∃ symbol, ∃ row ∈ evaluation.contents symbol, ∃ whole ∈ row,
      part.toTerm ∈ whole.toTerm.subterms) ∨
    ∃ rule ∈ program.rules, ∃ term ∈ rule.terms, part.toTerm ∈ term.subterms}

theorem finite_contents (evaluation : Evaluation) (symbol : RelationSymbol) :
    (evaluation.contents symbol).Finite := by
  have each : ∀ tuple, {row | evaluation.terms.DenotesAll tuple row}.Finite := fun tuple =>
    Set.Subsingleton.finite fun _ denotes _ denotes' => denotes.unique denotes'
  refine ((List.finite_toSet (evaluation.db.tuplesOf symbol)).biUnion fun tuple _ =>
    each tuple).subset ?_
  rintro row ⟨tuple, listed, denotes⟩
  exact Set.mem_biUnion listed denotes

theorem finite_groundTerms (program : Program) (evaluation : Evaluation) :
    (groundTerms program evaluation).Finite := by
  have loaded : (⋃ symbol ∈ {symbol | symbol ∈ evaluation.db.symbols},
      ⋃ row ∈ evaluation.contents symbol, ⋃ whole ∈ {whole | whole ∈ row},
        {part : Value | part.toTerm ∈ whole.toTerm.subterms}).Finite :=
    (List.finite_toSet _).biUnion fun symbol _ => (evaluation.finite_contents symbol).biUnion
      fun row _ => (List.finite_toSet row).biUnion fun whole _ => whole.toTerm.finite_parts
  have constants : (⋃ rule ∈ {rule | rule ∈ program.rules}, ⋃ term ∈ {term | term ∈ rule.terms},
      {part : Value | part.toTerm ∈ term.subterms}).Finite :=
    (List.finite_toSet _).biUnion fun rule _ => (List.finite_toSet _).biUnion
      fun term _ => term.finite_parts
  refine (loaded.union constants).subset ?_
  rintro part (⟨symbol, row, listed, whole, inRow, isPart⟩ | ⟨rule, inProgram, term, inRule, isPart⟩)
  · obtain ⟨tuple, inStore, -⟩ := id listed
    have registered := FactStore.mem_symbols_of_mem_tuplesOf inStore
    exact .inl (Set.mem_biUnion registered (Set.mem_biUnion listed (Set.mem_biUnion inRow isPart)))
  · exact .inr (Set.mem_biUnion inProgram (Set.mem_biUnion inRule isPart))

/-- If functions return numbers of values, the numbers of ground terms denote different ground terms. -/
theorem ncard_groundIds_le
    (setUp : SetUp program strata functions config schedule resources evaluation)
    (wellFormed : program.WellFormed) (grounded : functions.Grounded)
    (before : ContinuesWarranted .values (resources.workspace config schedule) evaluation later)
    (grown : later.terms.Extends evaluation.terms) (room : later.terms.HasRoom) :
    (groundIds program evaluation later.terms).ncard ≤ (groundTerms program evaluation).ncard := by
  have loaded := setUp.warranted wellFormed Warrant.universal_values
    (Warrant.honours_values grounded)
  have denoted : ∀ id ∈ groundIds program evaluation later.terms,
      ∃ value ∈ groundTerms program evaluation, later.terms.Denotes id value := by
    rintro id (⟨root, ⟨symbol, tuple, listed, inTuple⟩, reaches⟩ |
      ⟨term, ⟨rule, inProgram, inRule⟩, value, isPart, denotes⟩)
    · have holds := FactStore.holds_of_mem_tuplesOf listed
      obtain ⟨row, denotesRow⟩ := TermStore.exists_denotesAll fun column inTuple =>
        loaded.stores.db.numbers symbol tuple holds column inTuple (grown.hasRoom room)
      obtain ⟨whole, inRow, denotesWhole⟩ :=
        exists_right_of_forall₂ (TermStore.denotesAll_iff_forall₂.mp denotesRow) inTuple
      obtain ⟨part, denotes, isPart⟩ := (denotesWhole.mono grown).exists_part_of_reaches reaches
      exact ⟨part, .inl ⟨symbol, row, ⟨tuple, listed, denotesRow⟩, whole, inRow, isPart⟩, denotes⟩
    · exact ⟨value, .inr ⟨rule, inProgram, term, inRule, isPart⟩, denotes⟩
  choose! valueOf isGround denotes using denoted
  refine Set.ncard_le_ncard_of_injOn valueOf isGround ?_ (finite_groundTerms program evaluation)
  intro first firstMember second secondMember same
  have distinct := before.machine.stores.terms room
  exact (same ▸ denotes first firstMember).injective distinct (denotes second secondMember)

/-! ## Whole runs -/

theorem SetUp.derived_le_capacity
    (setUp : SetUp program program.stratify functions config schedule resources evaluation)
    (wellFormed : program.WellFormed) (bounded : config.Bounded)
    (noCall : ∀ rule ∈ program.rules, rule.CallFree)
    (buildsNothing : ∀ rule ∈ program.rules, rule.BuildsNothing)
    (inRounds : config.eager = false)
    (ran : runStrata fuel program.stratify evaluation = .ok stats later)
    (room : later.terms.HasRoom) :
    List.Forall₂ (fun stats stratum =>
      stats.derived ≤ stratum.capacity (groundIds program evaluation later.terms))
        stats program.stratify := by
  have inside : Inside program evaluation evaluation :=
    ⟨setUp.inOrder wellFormed {}, setUp.grounded wellFormed bounded⟩
  exact (runStrata_inside setUp (Program.layers_stratify wellFormed) wellFormed inRounds noCall
    buildsNothing (fun _ member => member) inside fuel).of_ok ran room

/-- An evaluation of rules that neither call functions nor build values ends well, whichever mode and
order of tasks is chosen.  In rounds, a stratum takes at most one round more than it derives tuples, and
it derives at most one tuple for each row of ground terms that fits one of its relations. -/
theorem run_ends_within_capacity (built : program.Built) (bounded : config.Bounded)
    (noCall : ∀ rule ∈ program.rules, rule.CallFree)
    (buildsNothing : ∀ rule ∈ program.rules, rule.BuildsNothing)
    (accepted : ofProgram program functions config schedule = .ok evaluation) :
    (∃ enough, ∀ fuel, enough ≤ fuel → ∃ stats later, run fuel evaluation = .ok stats later) ∧
      (groundTerms program evaluation).Finite ∧
        (config.eager = false → ∀ fuel stats later, run fuel evaluation = .ok stats later →
          List.Forall₂ (fun stats _ => stats.roundDeltas.length ≤ stats.derived + 1)
              stats program.stratify ∧
            (later.terms.HasRoom →
              List.Forall₂ (fun stats stratum => stats.derived ≤
                  stratum.capacity (groundIds program evaluation later.terms))
                stats program.stratify) ∧
            (functions.Grounded → later.terms.HasRoom →
              List.Forall₂ (fun stats stratum => stats.derived ≤
                  stratum.capacity (groundTerms program evaluation)) stats program.stratify)) := by
  have wellFormed := built.wellFormed
  have layers := Program.layers_stratify wellFormed
  obtain ⟨resources, setUp⟩ := exists_setUp accepted
  refine ⟨exists_run_eq_ok setUp layers wellFormed noCall, finite_groundTerms program evaluation, ?_⟩
  intro inRounds fuel stats later ran
  obtain ⟨last, ranStrata, rfl⟩ := runStrata_of_run accepted ran
  have bounds := setUp.derived_le_capacity wellFormed bounded noCall buildsNothing inRounds ranStrata
  refine ⟨?_, bounds, fun grounded room => ?_⟩
  · exact length_roundDeltas_le ((congrArg Config.eager setUp.config_eq).trans inRounds) ranStrata
  · have honours := Warrant.honours_values grounded
    have start := setUp.warranted wellFormed Warrant.universal_values honours
    have after := (setUp.run_warranted wellFormed Warrant.universal_values honours fuel
      ⟨.refl evaluation, start⟩).of_ok ran
    have grown := (interns_runStrata fuel program.stratify evaluation).of_ok ranStrata
    have fewer := ncard_groundIds_le setUp wellFormed grounded after grown room
    exact (bounds room).imp fun _ stratum bound => bound.trans (stratum.capacity_mono fewer)

end Evaluation

/-! ## A sample program -/

namespace Sample

/-- The values in a tree of pairs. -/
def within : RelationSymbol := ⟨"within", 1⟩

/-- A tree whose first part is computed when it is loaded. -/
def tree : Fact where
  symbol := within
  args := [.ctor "pair" [.call "wrap" [.int 1], .ctor "pair" [.int 2, .int 3]]]

/-- What is within a pair is within the tree. -/
def partRules : List Rule :=
  ["X", "Y"].map fun name =>
    { head := atom within [.var name]
      body := [.predicate (atom within [.ctor "pair" [.var "X", .var "Y"]])] }

/-- The parts of a tree. -/
def partProgram : Program where
  relations := [within]
  facts := [tree]
  rules := partRules

theorem built_partProgram : partProgram.Built := by
  have declared : Program.Built { relations := [within] } :=
    .declare .empty (show Program.declare {} "within" 1 = .ok _ from rfl)
  have stated : Program.Built { partProgram with rules := [] } :=
    .addFact declared (show Program.addFact _ tree = .ok _ from rfl)
  have withOne : Program.Built { partProgram with rules := partRules.take 1 } :=
    .addRule stated (show Program.addRule _ partRules[0] = .ok _ from rfl)
  exact .addRule withOne (show Program.addRule _ partRules[1] = .ok _ from rfl)

end Sample

namespace Evaluation

theorem run_ends_within_capacity_sample :
    ∃ evaluation stats later,
      ofProgram Sample.partProgram Sample.functions {} .firstInFirstOut = .ok evaluation ∧
        run 20 evaluation = .ok stats later ∧
          List.Forall₂ (fun stats stratum => stats.derived ≤
            stratum.capacity (groundIds Sample.partProgram evaluation later.terms))
            stats Sample.partProgram.stratify ∧
          List.Forall₂ (fun stats stratum => stats.derived ≤
            stratum.capacity (groundTerms Sample.partProgram evaluation))
            stats Sample.partProgram.stratify := by
  have ended : endsWell 20
      (ofProgram Sample.partProgram Sample.functions {} .firstInFirstOut) = true := by
    decide +kernel
  obtain ⟨evaluation, stats, later, accepted, ran, room⟩ := exists_of_endsWell ended
  have ends := run_ends_within_capacity Sample.built_partProgram (by decide) (by decide) (by decide)
    accepted
  obtain ⟨-, byIds, byValues⟩ := ends.2.2 rfl 20 stats later ran
  exact ⟨evaluation, stats, later, accepted, ran, byIds room,
    byValues Sample.computes.grounded room⟩

end Evaluation

end Datalog
