import Datalog.Proofs.Planning.Refusal
import Datalog.Proofs.Planning.Strata
import Datalog.Proofs.Program.Calls

/-!
# Registering indices

The stores of deltas are planned for the relations that rules define, while atoms are marked by the
relations that a stratum lists.  Setting up a built program refuses the use of a relation exactly where
the two differ: where, in rounds, a rule of a stratum reads a listed relation that has base facts only.
-/

namespace Datalog

/-! ## Variants -/

namespace DeltaRule

variable {program : Program} {rule : Rule} {stratum : List RelationSymbol} {variant : DeltaRule}

theorem length_isolateArgs (next : Nat) (args : List Term) :
    (isolateArgs next args).1.length = args.length := by
  induction args generalizing next with
  | nil => rfl
  | cons arg args ih =>
      by_cases call : arg.containsCall = true
      · rw [isolateArgs_cons_call next args call, List.length_cons, List.length_cons, ih]
      · rw [isolateArgs_cons_other next args call, List.length_cons, List.length_cons, ih]

/-- Isolating calls leaves every atom with the number of arguments that it had. -/
theorem usesAll_isolateBody {body : List BodyLiteral} (uses : program.UsesAll body) (next : Nat) :
    program.UsesAll (isolateBody next body) := by
  induction body generalizing next with
  | nil => exact uses
  | cons first body ih =>
      have rest := ih fun atom delta member => uses atom delta (List.mem_cons_of_mem _ member)
      intro atom delta member
      by_cases marked : ∃ other, first = { literal := .predicate other, delta := true }
      · obtain ⟨other, rfl⟩ := marked
        have usesOther := uses other true List.mem_cons_self
        rw [isolateBody_cons_marked] at member
        rcases List.mem_append.mp member with equation | member
        · obtain ⟨index, arg, isEquation⟩ := eq_isolatedEquation_of_mem equation
          cases isEquation
        · rcases List.mem_cons.mp member with here | further
          · cases here
            exact ⟨usesOther.declared, (length_isolateArgs next other.args).trans usesOther.length_eq⟩
          · exact rest _ atom delta further
      · rw [isolateBody_cons_other next body fun other same => marked ⟨other, same⟩] at member
        rcases List.mem_cons.mp member with here | further
        · exact uses atom delta (List.mem_cons.mpr (.inl here))
        · exact rest next atom delta further

theorem usesAll_prepared (config : Config) (uses : program.UsesAll variant.body) :
    program.UsesAll (variant.prepared config).body := by
  unfold prepared
  split
  · exact usesAll_isolateBody uses 0
  · exact uses

theorem usesAll_of_mem_variants (wellFormed : program.WellFormed) (inProgram : rule ∈ program.rules)
    (isVariant : variant ∈ variants rule stratum) : program.UsesAll variant.body := by
  intro atom delta inBody
  apply wellFormed.bodies rule inProgram atom
  rw [← toRule_of_mem_variants isVariant]
  exact mem_toRule_body.mpr ⟨_, inBody, rfl⟩

/-- Every positive atom of the stratum is marked in some variant. -/
theorem exists_marked_of_mem {atom : Atom} (inBody : .predicate atom ∈ rule.body)
    (positive : atom.negated = false) (inStratum : atom.symbol ∈ stratum) :
    ∃ variant ∈ variants rule stratum,
      { literal := .predicate atom, delta := true } ∈ variant.body := by
  obtain ⟨position, atPosition⟩ := List.mem_iff_getElem?.mp inBody
  have isPosition : position ∈ recursivePositions rule stratum :=
    mem_recursivePositions.mpr ⟨atom, atPosition, positive, inStratum⟩
  refine ⟨markedAt rule position, ?_, ?_⟩
  · unfold variants
    split
    · next noPositions => simp [noPositions] at isPosition
    · exact List.mem_map_of_mem isPosition
  · obtain ⟨inside, isAtom⟩ := List.getElem?_eq_some_iff.mp atPosition
    exact List.mem_mapIdx.mpr ⟨position, inside, by simp [isAtom]⟩

end DeltaRule

section Setup

variable {program : Program} {functions : Registry} {config : Config} {schedule : Schedule}
  {resources : Planner.Resources} {strata : List Stratum} {stratum : Stratum}

/-- A rule of a stratum reads a relation that the stratum lists but no rule defines. -/
def Program.ListsBase (program : Program) (strata : List Stratum) (name : String) : Prop :=
  ∃ stratum ∈ strata, ∃ rule ∈ program.rulesOf stratum.symbols, ∃ atom,
    .predicate atom ∈ rule.body ∧ atom.negated = false ∧ atom.symbol ∈ stratum.symbols ∧
      atom.symbol ∉ program.ruleSymbols ∧ atom.symbol.name = name

/-- Failures of planning strata: those about the use of a relation are of rounds that read the delta of
a relation without rules. -/
def StrataFailure (program : Program) (config : Config) (strata : List Stratum)
    (error : SetupError) : Prop :=
  error.isAboutUse = true →
    config.eager = false ∧ ∃ name, error = .unknownRelation name ∧ program.ListsBase strata name

theorem strataFailure_of_other {error : SetupError} (other : error.isAboutUse = false) :
    StrataFailure program config strata error := by
  intro aboutUse
  rw [other] at aboutUse
  cases aboutUse

theorem RulePlan.ofRule_eq_error {separateDeltas : Bool} (ready : resources.Ready program)
    {rule : DeltaRule} (uses : program.UsesAll rule.body) {error : SetupError}
    (refused : RulePlan.ofRule functions separateDeltas rule resources = .error error) :
    error.isAboutUse = true → separateDeltas = true ∧ program.MissesDelta rule.body error := by
  let context : Planner.Context := { functions, site := .inRule rule, separateDeltas }
  have start : Planner.State.Valid { resources } :=
    ⟨List.nodup_nil, ready.valid, List.prefix_refl _, .refl _⟩
  have refuses : Refuses
      (do
        let body ← Planner.body context rule.varCount [] rule.body
        let head ← Planner.termList context rule.head.args
        return (head, body))
      { resources } (Planner.BodyFailure program context rule.body) := by
    refine (Planner.body_refuses ready start uses).seq fun body middle => ?_
    refine Refuses.seq ((Planner.termList_refuses context rule.head.args).mono fun _ other => ?_)
      fun _ _ => .pure
    exact Planner.bodyFailure_of_other other
  unfold RulePlan.ofRule at refused
  simp only [bind, Except.bind] at refused
  split at refused
  · next ran =>
      cases refused
      exact refuses _ ran
  · cases refused

theorem ordered_eq_error {rule : DeltaRule} {optimization : Optimization} {error : SetupError}
    (refused : rule.ordered optimization = .error error) : error.isAboutUse = false := by
  unfold DeltaRule.ordered at refused
  split at refused
  · cases refused
    rfl
  · split at refused
    · cases refused
    · cases refused
      rfl

theorem planVariant_refuses (ready : resources.Ready program) {rule : Rule}
    (inProgram : rule ∈ program.rules) (inStratum : rule.head.symbol ∈ stratum.symbols)
    (wellFormed : program.WellFormed) (member : stratum ∈ strata) {variant : DeltaRule}
    (isVariant : variant ∈ DeltaRule.variants rule stratum.symbols) :
    Refuses (Evaluation.planVariant functions config variant) resources
      (StrataFailure program config strata) := by
  have uses := DeltaRule.usesAll_of_mem_variants wellFormed inProgram isVariant
  unfold Evaluation.planVariant
  refine .lift_bind (fun _ refused => strataFailure_of_other (ordered_eq_error refused))
    fun ordered orderedEq => ?_
  have orderedFrom : ordered.OrderedFrom (variant.prepared config) :=
    DeltaRule.orderedFrom_of_ordered orderedEq
  have usesOrdered : program.UsesAll ordered.body := fun atom delta inBody =>
    DeltaRule.usesAll_prepared config uses atom delta (orderedFrom.permuted.mem_iff.mp inBody)
  -- The only error about the use of a relation is a marked atom without a store for its deltas.
  have failure : ∀ error,
      RulePlan.ofRule functions (!config.eager) ordered resources = .error error →
        StrataFailure program config strata error := by
    intro error refused aboutUse
    obtain ⟨separate, atom, inOrdered, missing, rfl⟩ :=
      RulePlan.ofRule_eq_error ready usesOrdered refused aboutUse
    have rounds : config.eager = false := by simpa using separate
    have inVariant := orderedFrom.permuted.mem_iff.mp inOrdered
    rw [DeltaRule.prepared, if_neg (by simp [rounds])] at inVariant
    obtain ⟨other, sameAtom, positive, listed⟩ :=
      DeltaRule.marked_of_mem_variants isVariant inVariant rfl
    cases sameAtom
    have inBody : .predicate atom ∈ rule.body := by
      rw [← DeltaRule.toRule_of_mem_variants isVariant]
      exact DeltaRule.mem_toRule_body.mpr ⟨_, inVariant, rfl⟩
    exact ⟨rounds, atom.symbol.name, rfl, stratum, member, rule,
      Program.mem_rulesOf.mpr ⟨inProgram, inStratum⟩, atom, inBody, positive, listed, missing, rfl⟩
  dsimp only
  split
  · refine .lift_bind (fun error refused => ?_) fun _ _ => .get_bind (.lift_bind failure ?_)
    · unfold DeltaRule.requireDeltaFirst at refused
      split at refused
      · cases refused
      · cases refused
        exact strataFailure_of_other rfl
    · exact fun _ _ => .set_bind .pure
  · exact .get_bind (.lift_bind failure fun _ _ => .set_bind .pure)

/-! ## Strata -/

theorem mapM_refuses {α β : Type} {item : α → StateT Planner.Resources (Except SetupError) β}
    {allowed : SetupError → Prop} (inputs : List α)
    (produces : ∀ input {resources : Planner.Resources}, resources.Valid →
      Produces (item input) resources fun _ later => later.Continues resources)
    (refuses : ∀ input ∈ inputs, ∀ {resources : Planner.Resources}, resources.Ready program →
      Refuses (item input) resources allowed) {resources : Planner.Resources}
    (ready : resources.Ready program) : Refuses (inputs.mapM item) resources allowed := by
  induction inputs generalizing resources with
  | nil =>
      rw [List.mapM_nil]
      exact .pure
  | cons input inputs ih =>
      rw [List.mapM_cons]
      refine (refuses input List.mem_cons_self ready).bind (produces input ready.valid) ?_
      intro value middle continues
      have rest := ih (fun other member => refuses other (List.mem_cons_of_mem _ member))
        (ready.mono continues.valid continues.extended)
      exact rest.seq fun _ _ => .pure

variable {allowed : SetupError → Prop}

theorem planSymbol_refuses {symbol : RelationSymbol}
    (variants : ∀ variant ∈ program.variantsFor stratum symbol, ∀ {resources : Planner.Resources},
      resources.Ready program →
        Refuses (Evaluation.planVariant functions config variant) resources allowed)
    {resources : Planner.Resources} (ready : resources.Ready program) :
    Refuses (Evaluation.planSymbol program functions config stratum symbol) resources allowed := by
  unfold Evaluation.planSymbol
  refine (mapM_refuses _ (fun variant _ valid => ?_) variants ready).seq fun _ _ => .pure
  exact (planVariant_produces valid variant).mono fun _ _ done => done.1

theorem planStratum_refuses
    (negates : stratum.recursiveNegation = true → allowed (.unsafeStratum stratum.rank stratum.symbols))
    (variants : ∀ rule ∈ program.rulesOf stratum.symbols,
      ∀ variant ∈ DeltaRule.variants rule stratum.symbols, ∀ {resources : Planner.Resources},
        resources.Ready program →
          Refuses (Evaluation.planVariant functions config variant) resources allowed)
    {resources : Planner.Resources} (ready : resources.Ready program) :
    Refuses (Evaluation.planStratum program functions config stratum) resources allowed := by
  unfold Evaluation.planStratum
  split
  · next isUnsafe => exact .throw_bind (negates isUnsafe)
  · refine mapM_refuses _ (fun symbol _ valid => ?_) (fun symbol listed _ ready => ?_) ready
    · exact (planSymbol_produces symbol valid).mono fun _ _ done => done.1
    · refine planSymbol_refuses (fun variant isMember _ ready => ?_) ready
      obtain ⟨rule, ruleMember, isVariant⟩ := List.mem_flatMap.mp isMember
      obtain ⟨inProgram, headEq⟩ := List.mem_filter.mp ruleMember
      have headSymbol : rule.head.symbol = symbol := by simpa using headEq
      have inStratum := Program.mem_rulesOf.mpr ⟨inProgram, headSymbol ▸ listed⟩
      exact variants rule inStratum variant isVariant ready

/-- What is known about the failures of planning variants is known about planning the strata. -/
theorem planStrata_refuses
    (negates : ∀ stratum ∈ strata, stratum.recursiveNegation = true →
      allowed (.unsafeStratum stratum.rank stratum.symbols))
    (variants : ∀ stratum ∈ strata, ∀ rule ∈ program.rulesOf stratum.symbols,
      ∀ variant ∈ DeltaRule.variants rule stratum.symbols, ∀ {resources : Planner.Resources},
        resources.Ready program →
          Refuses (Evaluation.planVariant functions config variant) resources allowed)
    (ready : resources.Ready program) :
    Refuses (Evaluation.planStrata program functions config strata) resources allowed := by
  unfold Evaluation.planStrata
  refine (mapM_refuses _ (fun stratum _ valid => ?_) (fun stratum member _ ready => ?_)
    ready).seq fun _ _ => .pure
  · exact (planStratum_produces stratum valid).mono fun _ _ done => done.1
  · exact planStratum_refuses (negates stratum member) (variants stratum member) ready

theorem planQuery_refuses (built : program.Built) :
    Refuses (Evaluation.planQuery program functions) resources
      (StrataFailure program config strata) := by
  unfold Evaluation.planQuery
  split
  · exact .pure
  · next query isQuery =>
      have uses := built.uses_query isQuery
      refine .get_bind (.lift_bind (fun error refused => ?_) fun _ _ => .set_bind .pure)
      apply strataFailure_of_other
      have checks : Planner.checkArity query = pure () := by
        unfold Planner.checkArity
        rw [if_pos uses.length_eq]
      unfold QueryPlan.ofAtom at refused
      simp only [checks, bind, Except.bind] at refused
      split at refused
      · next ran =>
          cases refused
          exact Planner.termList_refuses _ query.args _ ran
      · cases refused

end Setup

namespace Evaluation

variable {program : Program} {functions : Registry} {config : Config} {schedule : Schedule}
  {strata : List Stratum} {evaluation : Evaluation} {resources : Planner.Resources}

theorem ready_startOf (program : Program) : (startOf program).Ready program :=
  ⟨valid_startOf program, .refl _, .refl _⟩

theorem loadFacts_ne_setup {machine : Machine} {error : SetupError} :
    loadFacts program functions config schedule machine ≠ .error (.setup error) := by
  intro failed
  unfold loadFacts at failed
  dsimp only at failed
  split at failed
  · cases failed
  · split at failed <;> cases failed

/-- An error of setting up comes from planning the strata or the query. -/
theorem setup_refuses (allowed : SetupError → Prop)
    (strataRefuses : Refuses (planStrata program functions config strata) (startOf program) allowed)
    (queryRefuses : ∀ resources, Refuses (planQuery program functions) resources allowed)
    {error : SetupError}
    (refused : setup program strata functions config schedule = .error (.setup error)) :
    allowed error := by
  have refuses : Refuses (planAll program functions config strata) (startOf program) allowed :=
    strataRefuses.seq fun rules middle => (queryRefuses middle).seq fun _ _ => .pure
  rcases setup_failure refused with ⟨cause, ran, same⟩ | ⟨_, _, -, failed⟩
  · cases same
    exact refuses error ran
  · exact absurd failed loadFacts_ne_setup

/-- Setting up a built program is refused the use of a relation only where rounds read the deltas of a
relation that no rule defines. -/
theorem setup_eq_error (built : program.Built) {error : SetupError}
    (refused : setup program strata functions config schedule = .error (.setup error)) :
    StrataFailure program config strata error := by
  refine setup_refuses (StrataFailure program config strata)
    (planStrata_refuses (fun _ _ _ => strataFailure_of_other rfl) ?_ (ready_startOf program))
    (fun _ => planQuery_refuses built) refused
  intro stratum member rule ruleMember variant isVariant _ ready
  obtain ⟨inProgram, inStratum⟩ := Program.mem_rulesOf.mp ruleMember
  exact planVariant_refuses ready inProgram inStratum built.wellFormed member isVariant

/-- An index that a literal of a planned body is looked up in has been requested. -/
theorem exists_provided {context : Planner.Context} {state : Planner.State} {count : String → Nat}
    {bound : List String} {planned : List PlanLiteral} {body : List BodyLiteral}
    (plannedBody : Planner.PlannedBody context state count bound planned body) {atom : Atom}
    {delta : Bool} (inBody : { literal := .predicate atom, delta } ∈ body) :
    ∃ number pattern, (state.resources.referents context.separateDeltas).provides delta atom.symbol
      number pattern := by
  induction body generalizing bound planned with
  | nil => cases inBody
  | cons literal body ih =>
      cases planned with
      | nil => exact plannedBody.elim
      | cons first others =>
          obtain ⟨plannedLiteral, plannedOthers⟩ := plannedBody
          rcases List.mem_cons.mp inBody with rfl | further
          · cases first with
            | unify | disunify => exact plannedLiteral.elim
            | scan lookup | absent lookup =>
                have plannedAtom := plannedLiteral.2
                exact ⟨lookup.index, lookup.pattern, plannedAtom.symbol_eq ▸ plannedAtom.provides⟩
          · exact ih plannedOthers further

theorem SetUp.exists_plansVariant
    (setUp : SetUp program strata functions config schedule resources evaluation)
    {stratum : Stratum} (member : stratum ∈ strata) {rule : Rule}
    (ruleMember : rule ∈ program.rulesOf stratum.symbols) {variant : DeltaRule}
    (isVariant : variant ∈ DeltaRule.variants rule stratum.symbols) :
    ∃ plan : RulePlan, plan.PlansVariant functions config resources variant := by
  obtain ⟨inProgram, inStratum⟩ := Program.mem_rulesOf.mp ruleMember
  have variantMember : variant ∈ program.variantsFor stratum rule.head.symbol :=
    List.mem_flatMap.mpr ⟨rule, List.mem_filter.mpr ⟨inProgram, by simp⟩, isVariant⟩
  obtain ⟨parts, -, planned⟩ := setUp.rules
  obtain ⟨part, -, -, plansSymbols⟩ := exists_left_of_forall₂ planned member
  obtain ⟨entry, -, -, plansVariants⟩ := exists_left_of_forall₂ plansSymbols inStratum
  obtain ⟨plan, -, plans⟩ := exists_left_of_forall₂ plansVariants variantMember
  exact ⟨plan, plans⟩

/-- In rounds, an evaluation that has been set up reads no deltas of relations without rules. -/
theorem SetUp.not_listsBase
    (setUp : SetUp program strata functions config schedule resources evaluation)
    (rounds : config.eager = false) (name : String) : ¬program.ListsBase strata name := by
  rintro ⟨stratum, member, rule, ruleMember, atom, inBody, positive, listed, missing, -⟩
  obtain ⟨variant, isVariant, inVariant⟩ :=
    DeltaRule.exists_marked_of_mem inBody positive listed
  obtain ⟨plan, plans⟩ := setUp.exists_plansVariant member ruleMember isVariant
  obtain ⟨names, made⟩ := plans.made
  have prepared : variant.prepared config = variant := by
    rw [DeltaRule.prepared, if_neg (by simp [rounds])]
  have inSource := plans.ordered.permuted.mem_iff.mpr (prepared.symm ▸ inVariant)
  obtain ⟨number, pattern, provided⟩ := exists_provided made.body inSource
  simp only [Planner.Resources.referents, rounds, Bool.not_false, Bool.and_self, if_true]
    at provided
  obtain ⟨patterns, found, -⟩ := provided
  have registered := setUp.delta.relations atom.symbol
  rw [found, Option.isSome_some, eq_comm, StorePlan.isSome_patterns?_ofSymbols] at registered
  exact missing registered

/-- What setting up an evaluation does with the relations of the given strata.  No atom has a wrong
number of arguments; a relation is unknown only if it is listed without having rules, and in rounds a
rule of the stratum that lists it reads it; then nothing is set up; and an index can be registered with
the store in which it is looked up for every other literal. -/
structure Registration (program : Program) (strata : List Stratum) (functions : Registry)
    (config : Config) (schedule : Schedule) : Prop where
  arity : ∀ relation expected found,
    setup program strata functions config schedule ≠
      .error (.setup (.arityMismatch relation expected found))
  unknown : ∀ name,
    setup program strata functions config schedule = .error (.setup (.unknownRelation name)) →
      config.eager = false ∧ program.ListsBase strata name
  refused : config.eager = false → ∀ name, program.ListsBase strata name →
    ∀ evaluation, setup program strata functions config schedule ≠ .ok evaluation
  indices : ∀ stratum ∈ strata, ∀ rule ∈ program.rulesOf stratum.symbols,
    ∀ variant ∈ DeltaRule.variants rule stratum.symbols, ∀ (atom : Atom) (delta : Bool),
      { literal := .predicate atom, delta } ∈ (variant.prepared config).body →
        ∀ (count : String → Nat) (bound : List String) (resources : Planner.Resources),
          resources.Ready program →
            ((∃ number later, (resources.storeOf (!config.eager) delta).request atom.symbol
                (atom.args.map (Planner.bindingOf count bound)) = .ok (number, later)) ↔
              (delta && !config.eager → atom.symbol ∈ program.ruleSymbols))

theorem setup_registers (built : program.Built) (strata : List Stratum) (functions : Registry)
    (config : Config) (schedule : Schedule) :
    Registration program strata functions config schedule where
  arity relation expected found refused := by
    obtain ⟨-, name, same, -⟩ := setup_eq_error built refused rfl
    cases same
  unknown name refused := by
    obtain ⟨rounds, other, same, listed⟩ := setup_eq_error built refused rfl
    cases same
    exact ⟨rounds, listed⟩
  refused rounds name listed evaluation accepted := by
    obtain ⟨resources, setUp⟩ := exists_setUp accepted
    exact setUp.not_listsBase rounds name listed
  indices stratum _ rule ruleMember variant isVariant atom delta inBody count bound resources ready :=
    by
    have inProgram := (Program.mem_rulesOf.mp ruleMember).1
    have usesAll := DeltaRule.usesAll_of_mem_variants built.wellFormed inProgram isVariant
    have uses := DeltaRule.usesAll_prepared config usesAll atom delta inBody
    rw [StorePlan.exists_request_iff, List.length_map,
      ready.registers_iff uses.declared (!config.eager) delta]
    simp [uses.length_eq]

theorem setup_registers_sample :
    Registration Sample.program Sample.program.stratify Sample.functions {} .firstInFirstOut :=
  setup_registers Sample.built _ _ _ _

end Evaluation

namespace Sample

/-- The calls that build the paths of one edge. -/
def calls : List Call := [
  .declare "edge" 2,
  .declare "path" 2,
  .addFact (fact 1 2),
  .addRule
    { head := atom path [.var "X", .var "Y"]
      body := [.predicate (atom edge [.var "X", .var "Y"])] }]

/-- A stratum that lists the edges, which no rule defines, along with the paths. -/
def mixed : Stratum where
  rank := 0
  symbols := [edge, path]
  recursiveNegation := false

def failure? : Except RunError Evaluation → Option RunError
  | .error error => some error
  | .ok _ => none

theorem eq_error_of_failure? {outcome : Except RunError Evaluation} {error : RunError}
    (failed : failure? outcome = some error) : outcome = .error error := by
  cases outcome with
  | error => rw [Option.some.inj failed]
  | ok => cases failed

/-- The stratum respects the dependencies and lists each relation once, and eager evaluation accepts it,
but in rounds the edges are said to be unknown. -/
theorem setup_mixed :
    let program := Program.ofCalls calls
    program.Built ∧ program.IsStratification [mixed.symbols] ∧ mixed.symbols.Nodup ∧
      (∀ symbol ∈ mixed.symbols, symbol ∈ program.relations) ∧
        (Evaluation.setup program [mixed] {} { eager := true } .firstInFirstOut).isOk = true ∧
          Evaluation.setup program [mixed] {} {} .firstInFirstOut =
            .error (.setup (.unknownRelation "edge")) := by
  have covers : ∀ rule ∈ (Program.ofCalls calls).rules,
      ∃ group ∈ [mixed.symbols], rule.head.symbol ∈ group := by
    decide
  have readsBase : ∀ rule ∈ (Program.ofCalls calls).rules, ∀ literal ∈ rule.body,
      ∀ atom ∈ literal.atom?, atom.symbol ∉ (Program.ofCalls calls).ruleSymbols := by
    decide
  have built := Program.built_ofCalls calls
  refine ⟨built, ⟨covers, List.pairwise_singleton _ _, ?_⟩, by decide, by decide,
    by decide +kernel, eq_error_of_failure? (by decide +kernel)⟩
  intro before group after split rule inProgram inGroup atom inBody derived
  have declared := (built.wellFormed.bodies rule inProgram atom inBody).declared
  exact absurd (Program.mem_ruleSymbols.mpr ⟨declared, derived⟩)
    (readsBase rule inProgram _ inBody atom rfl)

end Sample

end Datalog
