import Datalog.Function.Builtin
import Datalog.Proofs.Engine.PerfectModel
import Datalog.Proofs.Engine.Warrant
import Datalog.Proofs.Evaluation.Answers

/-!
# Asking

The query of a program may be asked before and after runs, and again and again.  Asking changes nothing
but the terms, and it interns terms only where the query calls functions.  A query without calls is
answered by exactly the tuples that it describes.  With calls, a query that was accepted may still fail
for another reason than the failure of a call: the arguments are matched in the order in which they are
written, and nothing checks that a call comes after the arguments that give its variables values.
-/

namespace Datalog

namespace Sample

/-- The nodes of the graph that no path joins to themselves. -/
def loopQuery : Atom :=
  atom apart [.var "X", .var "X"]

def askingProgram : Program :=
  { program with query := some loopQuery }

theorem built_askingProgram : askingProgram.Built :=
  .setQuery built (show program.setQuery loopQuery = .ok _ from rfl)

/-- One number comes after another. -/
def successor : RelationSymbol := ⟨"successor", 2⟩

def twoAfterOne : Fact where
  symbol := successor
  args := [.int 2, .int 1]

/-- The number after one, and a question about numbers. -/
def successorProgram (query : Atom) : Program where
  relations := [successor]
  facts := [twoAfterOne]
  query := some query

theorem built_successorProgram (next number : Term) :
    (successorProgram (atom successor [next, number])).Built := by
  have declared : Program.Built { relations := [successor] } :=
    .declare .empty (show Program.declare {} "successor" 2 = .ok _ from rfl)
  have stated : Program.Built { relations := [successor], facts := [twoAfterOne] } :=
    .addFact declared (show Program.addFact _ twoAfterOne = .ok _ from rfl)
  exact .setQuery stated (show Program.setQuery _ (atom successor [next, number]) = .ok _ from rfl)

/-- Which number comes after the number below it, with the variable first. -/
def timelyQuery : Atom :=
  atom successor [.var "X", .call "sub" [.var "X", .int 1]]

/-- Which number comes before the number above it, with the variable last. -/
def earlyQuery : Atom :=
  atom successor [.call "add" [.var "X", .int 1], .var "X"]

end Sample

namespace Evaluation

variable {program : Program} {functions : Registry} {config : Config} {schedule : Schedule}
  {strata : List Stratum} {resources : Planner.Resources} {evaluation later : Evaluation}
  {warrant : Warrant} {plan : QueryPlan} {query : Atom}

/-! ## Runs and questions -/

/-- What an evaluation has become after some runs and questions, whether or not they have failed. -/
inductive HasServed (evaluation : Evaluation) : Evaluation → Prop
  | never : HasServed evaluation evaluation
  | ended {start later : Evaluation} {fuel : Nat} {stats : List StratumStats}
      (before : HasServed evaluation start) (ran : run fuel start = .ok stats later) :
      HasServed evaluation later
  | stopped {start later : Evaluation} {fuel : Nat} {stop : Stop}
      (before : HasServed evaluation start) (stopped : run fuel start = .error stop later) :
      HasServed evaluation later
  | asked {start later : Evaluation} {outcome : Except EvalError (List Tuple)}
      (before : HasServed evaluation start) (answered : start.queryAnswer = some (outcome, later)) :
      HasServed evaluation later

def withTerms (evaluation : Evaluation) (terms : TermStore) : Evaluation :=
  { evaluation with
    machine := { evaluation.machine with
      workspace := { evaluation.machine.workspace with terms } } }

theorem exists_queryAnswer (planned : evaluation.query = some plan)
    {done : List Tuple → TermStore → Prop} {stopped : EvalError → TermStore → Prop}
    (asked : Leaves (filterAnswers evaluation.functions plan (evaluation.db.tuplesOf plan.symbol))
      evaluation.terms done stopped) :
    ∃ outcome terms, evaluation.queryAnswer = some (outcome, evaluation.withTerms terms) ∧
      (∀ answer, outcome = .ok answer → done answer terms) ∧
        ∀ error, outcome = .error error → stopped error terms := by
  unfold Leaves at asked
  split at asked
  · next answer terms outcome =>
      have answered : evaluation.queryAnswer = some (.ok answer, evaluation.withTerms terms) := by
        apply Option.map_eq_some_iff.mpr
        refine ⟨plan, planned, ?_⟩
        dsimp only
        rw [outcome]
        rfl
      exact ⟨.ok answer, terms, answered, fun _ same => Except.ok.inj same ▸ asked, nofun⟩
  · next error terms outcome =>
      have answered : evaluation.queryAnswer = some (.error error, evaluation.withTerms terms) := by
        apply Option.map_eq_some_iff.mpr
        refine ⟨plan, planned, ?_⟩
        dsimp only
        rw [outcome]
        rfl
      exact ⟨.error error, terms, answered, nofun, fun _ same => Except.error.inj same ▸ asked⟩

/-- The query is planned with constants that are warranted. -/
def HasWarrantedQuery (warrant : Warrant) (start : Workspace) (evaluation : Evaluation) : Prop :=
  ∀ plan ∈ evaluation.query, PlanTerm.Warranted warrant start.terms plan.args

theorem ContinuesWarranted.asked {start : Workspace} {last : Evaluation}
    {outcome : Except EvalError (List Tuple)} (honours : evaluation.functions.Honours warrant)
    (constants : evaluation.HasWarrantedQuery warrant start)
    (before : ContinuesWarranted warrant start evaluation later)
    (answered : later.queryAnswer = some (outcome, last)) :
    ContinuesWarranted warrant start evaluation last := by
  obtain ⟨plan, planned, -⟩ := Option.map_eq_some_iff.mp answered
  have stores := before.machine.stores
  have constants : PlanTerm.Warranted warrant later.terms plan.args := by
    have atStart := constants plan (before.continues.query_eq ▸ planned)
    exact atStart.mono stores.grown
  have numbers : ∀ tuple ∈ later.db.tuplesOf plan.symbol, ∀ id ∈ tuple,
      warrant.number later.terms id :=
    fun tuple member => stores.db.numbers plan.symbol tuple (FactStore.holds_of_mem_tuplesOf member)
  have honours : later.functions.Honours warrant := before.continues.functions_eq ▸ honours
  obtain ⟨outcome', terms, answered', done, stopped⟩ := exists_queryAnswer planned
    (filterAnswers_keepsWarrant honours stores.terms constants numbers)
  obtain ⟨rfl, rfl⟩ : outcome = outcome' ∧ last = later.withTerms terms := by
    simpa [answered] using answered'
  have kept : warrant.terms terms ∧ terms.Extends later.terms := by
    cases outcome with
    | ok answer => exact done answer rfl
    | error error => exact stopped error rfl
  exact ⟨before.continues.trans ⟨rfl, rfl, rfl, rfl, rfl, rfl, rfl⟩,
    before.machine.idle, stores.withTerms kept.1 kept.2⟩

theorem HasServed.warranted
    (setUp : SetUp program strata functions config schedule resources evaluation)
    (wellFormed : program.WellFormed) (universal : warrant.Universal)
    (honours : functions.Honours warrant)
    (constants : evaluation.HasWarrantedQuery warrant (resources.workspace config schedule))
    (served : HasServed evaluation later) :
    ContinuesWarranted warrant (resources.workspace config schedule) evaluation later := by
  induction served with
  | never => exact ⟨.refl evaluation, setUp.warranted wellFormed universal honours⟩
  | ended _ ran before =>
      exact (setUp.run_warranted wellFormed universal honours _ before).of_ok ran
  | stopped _ stopped before =>
      exact (setUp.run_warranted wellFormed universal honours _ before).of_error stopped
  | asked _ answered before =>
      exact before.asked (setUp.functions_eq ▸ honours) constants answered

/-- What has become of an evaluation that was set up has a plan for the query, and warranted stores. -/
theorem HasServed.exists_queryPlan (built : program.Built)
    (accepted : setup program strata functions config schedule = .ok evaluation)
    (isQuery : program.query = some query) (universal : warrant.Universal)
    (honours : functions.Honours warrant) (served : HasServed evaluation later) :
    ∃ (resources : Planner.Resources) (names : List String) (plan : QueryPlan),
      later.functions = functions ∧ later.query = some plan ∧
      plan.Made functions resources.terms names query ∧
        later.machine.workspace.Warranted warrant (resources.workspace config schedule) := by
  obtain ⟨resources, setUp, planned⟩ := exists_setUp_query accepted
  rw [isQuery] at planned
  cases queryEq : evaluation.query with
  | none =>
      rw [queryEq] at planned
      cases planned
  | some plan =>
      rw [queryEq] at planned
      cases planned with
      | some made =>
          obtain ⟨names, made⟩ := made
          have constants : evaluation.HasWarrantedQuery warrant (resources.workspace config schedule) := by
            intro plan' isPlan
            obtain rfl : plan = plan' := Option.some.inj (queryEq.symm.trans isPlan)
            exact made.represents.warranted fun term _ => universal.holdsFor _ term
          have kept := served.warranted setUp built.wellFormed universal honours constants
          exact ⟨resources, names, plan, kept.continues.functions_eq.trans setUp.functions_eq,
            kept.continues.query_eq.trans queryEq, made, kept.machine.stores⟩

/-! ## Queries without calls -/

/-- A tuple of the store is matched with a query without calls as the query describes it, without
failing and without interning. -/
theorem leaves_answers_of_callFree {names : List String} {start : Workspace}
    (made : plan.Made later.functions start.terms names query)
    (noCall : Term.containsCallList query.args = false)
    (warranted : later.machine.workspace.Warranted .values start) (room : later.terms.HasRoom)
    {tuple : Tuple} (member : tuple ∈ later.db.tuplesOf plan.symbol) :
    Leaves (plan.answers later.functions tuple) later.terms
      (fun success terms => terms = later.terms ∧
        (success = true ↔ query.Describes later.terms tuple))
      fun _ _ => False := by
  have held := FactStore.holds_of_mem_tuplesOf member
  have length : tuple.length = query.symbol.arity :=
    made.symbol_eq ▸ warranted.db.valid.length_of_holds held
  obtain ⟨row, denotes⟩ := TermStore.exists_denotesAll fun id inTuple =>
    warranted.db.numbers plan.symbol tuple held id inTuple room
  exact made.answers_of_callFree noCall (warranted.terms room) room warranted.grown denotes length

/-- A query without calls is answered by the tuples of its relation that it describes, each once and in
the order of the master index.  The evaluation stays as it is. -/
theorem queryAnswer_of_callFree (built : program.Built)
    (accepted : setup program strata functions config schedule = .ok evaluation)
    (bounded : config.Bounded) (grounded : functions.Grounded)
    (isQuery : program.query = some query)
    (noCall : ∀ term ∈ query.args, term.containsCall = false)
    (served : HasServed evaluation later) (room : later.terms.HasRoom) :
    ∃ answer, later.queryAnswer = some (.ok answer, later) ∧
      answer.Sublist (later.db.masterOf query.symbol).tuples ∧ answer.Nodup ∧
        ∀ tuple, tuple ∈ answer ↔
          tuple ∈ (later.db.masterOf query.symbol).tuples ∧ query.Describes later.terms tuple := by
  obtain ⟨resources, names, plan, functionsEq, planned, made, warranted⟩ :=
    served.exists_queryPlan built accepted isQuery Warrant.universal_values
      (Warrant.honours_values grounded)
  subst functionsEq
  have noCall := Term.containsCallList_eq_false.mpr noCall
  -- Asking about a tuple interns nothing, so that every tuple meets the same terms.
  have asked : ∀ tuple ∈ later.db.tuplesOf plan.symbol, ∀ {store}, store = later.terms →
      Leaves (plan.answers later.functions tuple) store
        (fun success last => last = later.terms ∧ (success = true → query.Describes later.terms tuple) ∧
          (success = false → ¬ query.Describes later.terms tuple)) fun _ _ => False := by
    rintro tuple member store rfl
    apply (leaves_answers_of_callFree made noCall warranted room member).imp_done
    rintro success last ⟨same, isAnswer⟩
    exact ⟨same, isAnswer.mp, fun failed describes => by simp [isAnswer.mpr describes] at failed⟩
  obtain ⟨outcome, terms, answered, done, stopped⟩ :=
    exists_queryAnswer planned (leaves_filterAnswers asked rfl)
  cases outcome with
  | error error => exact (stopped error rfl).elim
  | ok answer =>
      have limits : later.db.limits.Bounded := by
        rw [show later.db.limits = _ from warranted.limits_eq]
        exact bounded
      obtain ⟨rfl, sublist, answers, others⟩ := done answer rfl
      rw [made.symbol_eq, FactStore.tuplesOf_eq limits] at sublist others
      have distinct := sublist.nodup (warranted.db.valid.nodup_tuples_masterOf query.symbol)
      refine ⟨answer, answered, sublist, distinct, fun tuple => ?_⟩
      constructor
      · exact fun member => ⟨sublist.subset member, answers tuple member⟩
      · rintro ⟨member, describes⟩
        by_contra absent
        exact others tuple member absent describes

theorem queryAnswer_of_callFree_sample :
    ∃ evaluation stats later answer,
      ofProgram Sample.askingProgram Sample.functions {} .firstInFirstOut = .ok evaluation ∧
        run 20 evaluation = .ok stats later ∧
          later.queryAnswer = some (.ok answer, later) ∧
            ∀ tuple, tuple ∈ answer ↔ tuple ∈ (later.db.masterOf Sample.apart).tuples ∧
              Sample.loopQuery.Describes later.terms tuple := by
  have ended : endsWell 20
      (ofProgram Sample.askingProgram Sample.functions {} .firstInFirstOut) = true := by
    decide +kernel
  obtain ⟨evaluation, stats, later, accepted, ran, room⟩ := exists_of_endsWell ended
  obtain ⟨answer, answered, -, -, describes⟩ := queryAnswer_of_callFree Sample.built_askingProgram
    accepted (by decide) Sample.computes.grounded rfl (by decide) (.ended .never ran) room
  exact ⟨evaluation, stats, later, answer, accepted, ran, answered, describes⟩

/-! ## Queries with calls -/

/-- A query that was accepted fails only if a call fails, or if a call reads a variable that no earlier
argument gives a value.  In the latter case it has no answers. -/
theorem queryAnswer_reads (built : program.Built)
    (accepted : setup program strata functions config schedule = .ok evaluation)
    (isQuery : program.query = some query) (served : HasServed evaluation later) :
    ∃ outcome after, later.queryAnswer = some (outcome, after) ∧
      (∀ error, outcome = .error error → query.MayFail functions error) ∧
        (query.ReadsEarly → ∀ answer, outcome = .ok answer → answer = []) := by
  obtain ⟨resources, names, plan, functionsEq, planned, made, warranted⟩ :=
    served.exists_queryPlan built accepted isQuery Warrant.universal_nothing
      (Warrant.honours_nothing functions)
  have asked : ∀ tuple ∈ later.db.tuplesOf plan.symbol, ∀ {store : TermStore}, True →
      Leaves (plan.answers later.functions tuple) store
        (fun success _ => True ∧ (success = true → ¬ query.ReadsEarly) ∧ (success = false → True))
        fun error _ => query.MayFail functions error := by
    intro tuple member store _
    have length : tuple.length = query.symbol.arity :=
      made.symbol_eq ▸ warranted.db.valid.length_of_mem_tuplesOf member
    rw [functionsEq]
    apply (made.answers_reads length).imp_done
    exact fun _ _ timely => ⟨trivial, timely, fun _ => trivial⟩
  obtain ⟨outcome, terms, answered, done, stopped⟩ :=
    exists_queryAnswer planned (leaves_filterAnswers asked trivial)
  refine ⟨outcome, later.withTerms terms, answered, stopped, fun early answer isAnswer => ?_⟩
  obtain ⟨-, -, timely, -⟩ := done answer isAnswer
  apply List.eq_nil_iff_forall_not_mem.mpr
  intro tuple member
  exact timely tuple member early

/-- What an accepted evaluation answers to its query. -/
def answerOf : Except RunError Evaluation → Option (Except EvalError (List Tuple))
  | .ok evaluation => evaluation.queryAnswer.map (·.1)
  | .error _ => none

theorem exists_of_answerOf {accepted : Except RunError Evaluation}
    {outcome : Except EvalError (List Tuple)} (answered : answerOf accepted = some outcome) :
    ∃ evaluation after, accepted = .ok evaluation ∧
      evaluation.queryAnswer = some (outcome, after) := by
  cases accepted with
  | error error => cases answered
  | ok evaluation =>
      obtain ⟨⟨_, after⟩, found, rfl⟩ := Option.map_eq_some_iff.mp answered
      exact ⟨evaluation, after, rfl, found⟩

theorem queryAnswer_reads_sample :
    ∃ evaluation outcome after,
      ofProgram (Sample.successorProgram Sample.timelyQuery) .builtins {} .firstInFirstOut =
          .ok evaluation ∧
        evaluation.queryAnswer = some (outcome, after) ∧
          ∀ error, outcome = .error error → Registry.builtins.Raises error := by
  have asked : answerOf (ofProgram (Sample.successorProgram Sample.timelyQuery) .builtins {}
      .firstInFirstOut) = some (.ok [[⟨1⟩, ⟨0⟩]]) := by
    decide +kernel
  obtain ⟨evaluation, -, accepted, -⟩ := exists_of_answerOf asked
  obtain ⟨outcome, after, answered, fails, -⟩ :=
    queryAnswer_reads (Sample.built_successorProgram _ _) accepted rfl .never
  have timely : ¬ Sample.timelyQuery.ReadsEarly := by decide
  refine ⟨evaluation, outcome, after, accepted, answered, fun error failed => ?_⟩
  exact (fails error failed).resolve_right fun early => timely early.1

/-- The query describes the only tuple, but the sum is matched before the variable has a value. -/
theorem queryAnswer_reads_early :
    ∃ evaluation after,
      ofProgram (Sample.successorProgram Sample.earlyQuery) .builtins {} .firstInFirstOut =
          .ok evaluation ∧
        evaluation.queryAnswer = some (.error (.nonGround "variable slot 0"), after) := by
  have asked : answerOf (ofProgram (Sample.successorProgram Sample.earlyQuery) .builtins {}
      .firstInFirstOut) = some (.error (.nonGround "variable slot 0")) := by
    decide +kernel
  exact exists_of_answerOf asked

end Evaluation

end Datalog
