import Datalog.Proofs.Planning.Setup

/-!
# Rewording rules before planning

Planning looks at a rule for the terms and the relations that it mentions.  A rewording changes rules and
queries in a way that does not matter for planning: the same literals are chosen, the same indices are
requested and the same plans are made, and only the rule that a plan was made from has been reworded.
What is said in an error may be reworded too.
-/

namespace Datalog

/-! ## Outcomes that agree -/

/-- Both outcomes are failures, or the second is what is made of the first. -/
def Echoes {ε ε' α β : Type} (give : α → β) : Except ε α → Except ε' β → Prop
  | .ok value, .ok result => result = give value
  | .error _, .error _ => True
  | _, _ => False

/-- Two steps of planning agree: from states that correspond they both fail or lead to states that
correspond, with the second result made of the first. -/
def Agrees {ε σ α β : Type} (change : σ → σ) (give : α → β) (first : StateT σ (Except ε) α)
    (second : StateT σ (Except ε) β) : Prop :=
  ∀ state, Echoes (Prod.map give change) (first state) (second (change state))

namespace Echoes

variable {ε ε' α β γ δ : Type} {give : α → β} {give' : γ → δ}

theorem refl (outcome : Except ε α) : Echoes id outcome outcome := by
  cases outcome with
  | error => trivial
  | ok => rfl

theorem cases_of {first : Except ε α} {second : Except ε' β} (echoes : Echoes give first second) :
    (∃ error error', first = .error error ∧ second = .error error') ∨
      ∃ value, first = .ok value ∧ second = .ok (give value) := by
  cases first with
  | error error => cases second with
    | error error' => exact .inl ⟨error, error', rfl, rfl⟩
    | ok => exact echoes.elim
  | ok value => cases second with
    | error => exact echoes.elim
    | ok result => exact .inr ⟨value, rfl, congrArg Except.ok echoes⟩

theorem bind {first : Except ε α} {second : Except ε β} {next : α → Except ε γ}
    {next' : β → Except ε δ} (echoes : Echoes give first second)
    (nextEchoes : ∀ value, Echoes give' (next value) (next' (give value))) :
    Echoes give' (first >>= next) (second >>= next') := by
  obtain ⟨-, -, rfl, rfl⟩ | ⟨value, rfl, rfl⟩ := echoes.cases_of
  · trivial
  · exact nextEchoes value

theorem mapError {ε'' : Type} {change change' : ε → ε''} {first : Except ε α} {second : Except ε β}
    (echoes : Echoes give first second) :
    Echoes give (first.mapError change) (second.mapError change') := by
  obtain ⟨-, -, rfl, rfl⟩ | ⟨value, rfl, rfl⟩ := echoes.cases_of
  · trivial
  · rfl

end Echoes

namespace Agrees

variable {ε σ α β γ δ : Type} {change : σ → σ} {give : α → β} {give' : γ → δ}

theorem pure {value : α} :
    Agrees change give (pure value : StateT σ (Except ε) α) (pure (give value)) :=
  fun _ => rfl

theorem throw {error error' : ε} :
    Agrees change give (throw error : StateT σ (Except ε) α) (throw error') :=
  fun _ => trivial

theorem bind {first : StateT σ (Except ε) α} {second : StateT σ (Except ε) β}
    {next : α → StateT σ (Except ε) γ} {next' : β → StateT σ (Except ε) δ}
    (agrees : Agrees change give first second)
    (nextAgrees : ∀ value, Agrees change give' (next value) (next' (give value))) :
    Agrees change give' (first >>= next) (second >>= next') :=
  fun state => (agrees state).bind fun result => nextAgrees result.1 result.2

theorem get_bind {next : σ → StateT σ (Except ε) γ} {next' : σ → StateT σ (Except ε) δ}
    (nextAgrees : ∀ state, Agrees change give' (next state) (next' (change state))) :
    Agrees change give' (get >>= next) (get >>= next') :=
  fun state => nextAgrees state state

theorem set_bind {state : σ} {next : PUnit → StateT σ (Except ε) γ}
    {next' : PUnit → StateT σ (Except ε) δ}
    (nextAgrees : Agrees change give' (next ⟨⟩) (next' ⟨⟩)) :
    Agrees change give' (set state >>= next) (set (change state) >>= next') :=
  fun _ => nextAgrees state

theorem lift {first : Except ε α} {second : Except ε β} (echoes : Echoes give first second) :
    Agrees change give (liftM first : StateT σ (Except ε) α) (liftM second) := by
  intro state
  obtain ⟨-, -, rfl, rfl⟩ | ⟨value, rfl, rfl⟩ := echoes.cases_of
  · trivial
  · rfl

theorem mapM {ι κ : Type} (rename : ι → κ) {step : ι → StateT σ (Except ε) α}
    {step' : κ → StateT σ (Except ε) β}
    (each : ∀ item, Agrees change give (step item) (step' (rename item))) (items : List ι) :
    Agrees change (List.map give) (items.mapM step) ((items.map rename).mapM step') := by
  induction items with
  | nil => exact .pure
  | cons item items ih =>
      rw [List.map_cons, List.mapM_cons, List.mapM_cons]
      exact (each item).bind fun value => ih.bind fun values => .pure

theorem mapM_same {ι : Type} {step : ι → StateT σ (Except ε) α} {step' : ι → StateT σ (Except ε) β}
    (each : ∀ item, Agrees change give (step item) (step' item)) (items : List ι) :
    Agrees change (List.map give) (items.mapM step) (items.mapM step') := by
  have same := mapM id each items
  rwa [List.map_id] at same

end Agrees

/-! ## Rewordings -/

/-- The relations of the atoms of a body, and whether the atoms are negated. -/
def Rule.bodySigns (rule : Rule) : List (RelationSymbol × Bool) :=
  rule.bodyAtoms.map fun atom => (atom.symbol, atom.negated)

/-- A change of rules, of their variants and of queries that makes no difference for planning. -/
structure Rewording where
  rule : Rule → Rule
  variant : DeltaRule → DeltaRule
  query : Atom → Atom
  rule_headSymbol : ∀ original, (rule original).head.symbol = original.head.symbol
  rule_bodySigns : ∀ original, (rule original).bodySigns = original.bodySigns
  variant_headSymbol : ∀ original, (variant original).head.symbol = original.head.symbol
  variant_deltaPosition? : ∀ original, (variant original).deltaPosition? = original.deltaPosition?
  variants_rule : ∀ original stratum,
    DeltaRule.variants (rule original) stratum = (DeltaRule.variants original stratum).map variant
  isolateCalls_variant : ∀ original,
    (variant original).isolateCalls = variant original.isolateCalls
  ordered_variant : ∀ original optimization,
    Echoes variant (DeltaRule.ordered original optimization) ((variant original).ordered optimization)
  requireDeltaFirst_variant : ∀ original,
    Echoes id (DeltaRule.requireDeltaFirst original) (variant original).requireDeltaFirst
  ofRule_variant : ∀ functions separateDeltas original resources,
    Echoes (Prod.map (fun plan : RulePlan => { plan with source := variant plan.source }) id)
      (RulePlan.ofRule functions separateDeltas original resources)
      (RulePlan.ofRule functions separateDeltas (variant original) resources)
  ofAtom_query : ∀ functions original resources,
    Echoes id (QueryPlan.ofAtom functions original resources)
      (QueryPlan.ofAtom functions (query original) resources)

def Program.reword (rewording : Rewording) (program : Program) : Program :=
  { program with
    rules := program.rules.map rewording.rule
    query := program.query.map rewording.query }

/-- Reword the rule that a plan was made from. -/
def RulePlan.reword (rewording : Rewording) (plan : RulePlan) : RulePlan :=
  { plan with source := rewording.variant plan.source }

/-! ## Planning rules -/

namespace Evaluation

variable {rewording : Rewording} {program : Program} {functions : Registry} {config : Config}
  {stratum : Stratum}

/-- Plans for the rules of relations, with the rules reworded. -/
def rewordPlans (rewording : Rewording) :
    List (RelationSymbol × List RulePlan) → List (RelationSymbol × List RulePlan) :=
  List.map (Prod.map id (List.map (RulePlan.reword rewording)))

theorem planVariant_agrees (variant : DeltaRule) :
    Agrees id (RulePlan.reword rewording) (planVariant functions config variant)
      (planVariant functions config (rewording.variant variant)) := by
  have prepared : (if config.eager then (rewording.variant variant).isolateCalls
      else rewording.variant variant) =
      rewording.variant (if config.eager then variant.isolateCalls else variant) := by
    split
    · exact rewording.isolateCalls_variant variant
    · rfl
  unfold planVariant
  dsimp only
  rw [prepared]
  apply (Agrees.lift (rewording.ordered_variant _ _)).bind
  intro ordered
  split
  on_goal 1 => refine (Agrees.lift (rewording.requireDeltaFirst_variant ordered)).bind fun _ => ?_
  all_goals
    refine .get_bind fun resources => ?_
    apply (Agrees.lift (rewording.ofRule_variant _ _ ordered resources)).bind
    exact fun result => .set_bind .pure

theorem planSymbol_agrees (symbol : RelationSymbol) :
    Agrees id (Prod.map id (List.map (RulePlan.reword rewording)))
      (planSymbol program functions config stratum symbol)
      (planSymbol (program.reword rewording) functions config stratum symbol) := by
  have rules : (program.reword rewording).rulesFor symbol =
      (program.rulesFor symbol).map rewording.rule := by
    unfold Program.rulesFor Program.reword
    rw [List.filter_map]
    simp only [Function.comp_def, rewording.rule_headSymbol]
  have variants : ((program.reword rewording).rulesFor symbol).flatMap
        (DeltaRule.variants · stratum.symbols) =
      ((program.rulesFor symbol).flatMap (DeltaRule.variants · stratum.symbols)).map
        rewording.variant := by
    rw [rules, List.flatMap_map, List.map_flatMap]
    exact List.flatMap_congr fun rule _ => rewording.variants_rule rule stratum.symbols
  unfold planSymbol
  dsimp only
  rw [variants]
  apply (Agrees.mapM rewording.variant planVariant_agrees _).bind
  exact fun _ => .pure

theorem planStratum_agrees (stratum : Stratum) :
    Agrees id (rewordPlans rewording) (planStratum program functions config stratum)
      (planStratum (program.reword rewording) functions config stratum) := by
  have planned : Agrees id (rewordPlans rewording)
      (stratum.symbols.mapM (planSymbol program functions config stratum))
      (stratum.symbols.mapM (planSymbol (program.reword rewording) functions config stratum)) :=
    .mapM_same planSymbol_agrees stratum.symbols
  unfold planStratum
  split
  · exact fun _ => trivial
  · exact planned

theorem planAll_agrees (strata : List Stratum) :
    Agrees id (Prod.map (rewordPlans rewording) id) (planAll program functions config strata)
      (planAll (program.reword rewording) functions config strata) := by
  have rules : Agrees id (rewordPlans rewording) (planStrata program functions config strata)
      (planStrata (program.reword rewording) functions config strata) := by
    unfold planStrata
    apply (Agrees.mapM_same planStratum_agrees strata).bind
    intro plans
    have flat : rewordPlans rewording plans.flatten = (plans.map (rewordPlans rewording)).flatten :=
      List.map_flatten
    rw [← flat]
    exact .pure
  have query : Agrees id id (planQuery program functions)
      (planQuery (program.reword rewording) functions) := by
    unfold planQuery Program.reword
    cases program.query with
    | none => exact .pure
    | some query =>
        refine .get_bind fun resources => ?_
        apply (Agrees.lift (rewording.ofAtom_query _ query resources)).bind
        exact fun result => .set_bind .pure
  unfold planAll
  exact rules.bind fun _ => query.bind fun _ => .pure

end Evaluation

/-! ## Strata -/

namespace Program

variable (rewording : Rewording) (program : Program)

theorem ruleSymbols_reword : (program.reword rewording).ruleSymbols = program.ruleSymbols := by
  unfold ruleSymbols reword
  simp only [List.any_map, Function.comp_def, rewording.rule_headSymbol]

/-- The strata depend on the relations and the signs of the atoms only. -/
theorem stratify_reword : (program.reword rewording).stratify = program.stratify := by
  have edges : ∀ (symbols : List RelationSymbol) (rule : Rule),
      ((rule.bodyAtoms.filter (symbols.contains ·.symbol)).map fun atom =>
        (atom.symbol, rule.head.symbol)) =
      (rule.bodySigns.filter (symbols.contains ·.1)).map fun sign => (sign.1, rule.head.symbol) := by
    intro symbols rule
    rw [Rule.bodySigns, List.filter_map, List.map_map]
    rfl
  have negations : ∀ (symbols : List RelationSymbol) (rule : Rule),
      (rule.bodyAtoms.any fun atom => atom.negated && symbols.contains atom.symbol) =
        rule.bodySigns.any fun sign => sign.2 && symbols.contains sign.1 := by
    intro symbols rule
    rw [Rule.bodySigns, List.any_map]
    rfl
  have dependencies : (program.reword rewording).dependencies = program.dependencies := by
    unfold dependencies
    rw [ruleSymbols_reword]
    refine congrArg (Digraph.mk program.ruleSymbols) ?_
    unfold reword
    simp only [List.flatMap_map, edges, rewording.rule_bodySigns, rewording.rule_headSymbol]
  have negates : (program.reword rewording).negatesWithin = program.negatesWithin := by
    funext symbols
    unfold negatesWithin reword
    simp only [List.any_map, Function.comp_def, negations, rewording.rule_bodySigns,
      rewording.rule_headSymbol]
  unfold stratify
  rw [dependencies, negates]

end Program

end Datalog
