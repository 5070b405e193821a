import Datalog.Evaluation.Engine
import Datalog.Proofs.Evaluation.SemiNaive
import Datalog.Proofs.Planning.Bodies
import Datalog.Proofs.Semantics.Isolation

/-!
# Planning rules

Every variant of a rule gets a plan, and what was planned stays valid while more rules are planned.
A plan stands for its variant: neither the order of the literals nor the isolation of calls changes
what is derived.
-/

namespace Datalog

namespace Planner

/-- Planning has gone on with other rules. -/
structure Resources.Continues (later earlier : Resources) : Prop where
  valid : later.Valid
  extended : later.Extends earlier

theorem Resources.Continues.trans {first second third : Resources}
    (right : third.Continues second) (left : second.Continues first) : third.Continues first :=
  ⟨right.valid, right.extended.trans left.extended⟩

theorem Resources.Continues.refl {resources : Resources} (valid : resources.Valid) :
    resources.Continues resources :=
  ⟨valid, .refl _⟩

end Planner

/-- A plan was made from its source. -/
structure RulePlan.Made (functions : Registry) (separateDeltas : Bool)
    (resources : Planner.Resources) (names : List String) (plan : RulePlan) : Prop where
  names_nodup : names.Nodup
  slots_eq : plan.slots = names.length
  head : Planner.PlannedAll functions { resources, names } plan.head plan.source.head.args
  body : Planner.PlannedBody { functions, site := .inRule plan.source, separateDeltas }
    { resources, names } plan.source.varCount [] plan.body plan.source.body

variable {functions : Registry} {separateDeltas : Bool} {resources later : Planner.Resources}

theorem Planner.PlannedBody.mono {context : Context} {state later : State} {count : String → Nat}
    {bound : List String} {planned : List PlanLiteral} {body : List BodyLiteral}
    (plannedBody : PlannedBody context state count bound planned body)
    (continues : later.Continues state) : PlannedBody context later count bound planned body := by
  induction body generalizing bound planned with
  | nil =>
      cases planned with
      | nil => trivial
      | cons => exact plannedBody.elim
  | cons literal body ih =>
      cases planned with
      | nil => exact plannedBody.elim
      | cons planned others => exact ⟨plannedBody.1.mono continues, ih plannedBody.2⟩

theorem RulePlan.Made.mono {names : List String} {plan : RulePlan}
    (made : plan.Made functions separateDeltas resources names)
    (continues : later.Continues resources) : plan.Made functions separateDeltas later names := by
  have stateContinues : Planner.State.Continues { resources := later, names }
      { resources, names } :=
    ⟨made.names_nodup, continues.valid, List.prefix_refl _, continues.extended⟩
  exact
    { made with
      head := made.head.mono stateContinues
      body := made.body.mono stateContinues }

theorem RulePlan.made_of_ofRule (valid : resources.Valid) {rule : DeltaRule} {plan : RulePlan}
    (planned : RulePlan.ofRule functions separateDeltas rule resources = .ok (plan, later)) :
    later.Continues resources ∧ plan.source = rule ∧
      ∃ names, plan.Made functions separateDeltas later names := by
  let context : Planner.Context := { functions, site := .inRule rule, separateDeltas }
  have start : Planner.State.Valid { resources } :=
    ⟨List.nodup_nil, valid, List.prefix_refl _, .refl _⟩
  have produces : Produces
      (do
        let body ← Planner.body context rule.varCount [] rule.body
        let head ← Planner.termList context rule.head.args
        return (head, body))
      { resources } fun planned state => state.Continues { resources } ∧
        Planner.PlannedAll functions state planned.1 rule.head.args ∧
          Planner.PlannedBody context state rule.varCount [] planned.2 rule.body := by
    refine .bind (Planner.body_produces start rule.body) ?_
    rintro body middle ⟨continues, plannedBody⟩
    refine .bind (Planner.termList_produces context rule.head.args continues.later_valid) ?_
    rintro head last ⟨continues', plannedHead⟩
    exact .pure ⟨continues'.trans continues, plannedHead, plannedBody.mono continues'⟩
  unfold RulePlan.ofRule at planned
  simp only [bind, Except.bind] at planned
  split at planned
  · cases planned
  · next result ran =>
      obtain ⟨⟨head, body⟩, state⟩ := result
      cases planned
      obtain ⟨continues, plannedHead, plannedBody⟩ := produces _ _ ran
      exact ⟨⟨continues.valid, continues.extended⟩, rfl, state.names, continues.names_nodup, rfl,
        plannedHead, plannedBody⟩

/-! ## Variants -/

/-- The variant that is ordered: in an eager evaluation its calls are isolated. -/
def DeltaRule.prepared (config : Config) (variant : DeltaRule) : DeltaRule :=
  if config.eager then variant.isolateCalls else variant

/-- A plan was made from an ordered form of a variant. -/
structure RulePlan.PlansVariant (functions : Registry) (config : Config)
    (resources : Planner.Resources) (plan : RulePlan) (variant : DeltaRule) : Prop where
  ordered : plan.source.OrderedFrom (variant.prepared config)
  deltaFirst : config.eager = true → plan.source.isDeltaFirst = true
  made : ∃ names, plan.Made functions (!config.eager) resources names

variable {config : Config}

theorem RulePlan.PlansVariant.mono {plan : RulePlan} {variant : DeltaRule}
    (plans : plan.PlansVariant functions config resources variant)
    (continues : later.Continues resources) :
    plan.PlansVariant functions config later variant := by
  obtain ⟨names, made⟩ := plans.made
  exact { plans with made := ⟨names, made.mono continues⟩ }

theorem planVariant_produces (valid : resources.Valid) (variant : DeltaRule) :
    Produces (Evaluation.planVariant functions config variant) resources fun plan later =>
      later.Continues resources ∧ plan.PlansVariant functions config later variant := by
  unfold Evaluation.planVariant
  refine .lift_bind fun ordered orderedEq => ?_
  have orderedFrom : ordered.OrderedFrom (variant.prepared config) :=
    DeltaRule.orderedFrom_of_ordered orderedEq
  have plansVariant : ∀ {plan : RulePlan} {later : Planner.Resources},
      (config.eager = true → ordered.isDeltaFirst = true) →
        RulePlan.ofRule functions (!config.eager) ordered resources = .ok (plan, later) →
          later.Continues resources ∧ plan.PlansVariant functions config later variant := by
    intro plan later deltaFirst planned
    obtain ⟨continues, rfl, names, made⟩ := RulePlan.made_of_ofRule valid planned
    exact ⟨continues, orderedFrom, deltaFirst, names, made⟩
  dsimp only
  split
  · next eager =>
      refine .lift_bind fun _ checked => .get_bind (.lift_bind ?_)
      rintro ⟨plan, later⟩ planned
      refine .set_bind (.pure (plansVariant (fun _ => ?_) planned))
      unfold DeltaRule.requireDeltaFirst at checked
      split at checked
      · next deltaFirst => exact deltaFirst
      · cases checked
  · next rounds =>
      refine .get_bind (.lift_bind ?_)
      rintro ⟨plan, later⟩ planned
      exact .set_bind (.pure (plansVariant (fun eager => absurd eager rounds) planned))

/-! ## Programs -/

/-- Items that are planned one after another keep their plans. -/
theorem mapM_produces {α β : Type} {item : α → StateT Planner.Resources (Except SetupError) β}
    {planned : Planner.Resources → β → α → Prop}
    (mono : ∀ {resources later value input}, planned resources value input →
      Planner.Resources.Continues later resources → planned later value input)
    (itemProduces : ∀ input {resources : Planner.Resources}, resources.Valid →
      Produces (item input) resources fun value later =>
        later.Continues resources ∧ planned later value input)
    (inputs : List α) {resources : Planner.Resources} (valid : resources.Valid) :
    Produces (inputs.mapM item) resources fun values later =>
      later.Continues resources ∧ List.Forall₂ (planned later) values inputs := by
  induction inputs generalizing resources with
  | nil =>
      rw [List.mapM_nil]
      exact .pure ⟨.refl valid, .nil⟩
  | cons input inputs ih =>
      rw [List.mapM_cons]
      refine .bind (itemProduces input valid) ?_
      rintro value middle ⟨continues, plannedFirst⟩
      refine .bind (ih continues.valid) ?_
      rintro values last ⟨continues', plannedRest⟩
      exact .pure ⟨continues'.trans continues, .cons (mono plannedFirst continues') plannedRest⟩

def Program.variantsFor (program : Program) (stratum : Stratum) (symbol : RelationSymbol) :
    List DeltaRule :=
  (program.rulesFor symbol).flatMap (DeltaRule.variants · stratum.symbols)

/-- A relation of a stratum with the plans of its rules. -/
def PlansSymbol (program : Program) (functions : Registry) (config : Config) (stratum : Stratum)
    (resources : Planner.Resources) (entry : RelationSymbol × List RulePlan)
    (symbol : RelationSymbol) : Prop :=
  entry.1 = symbol ∧
    List.Forall₂ (RulePlan.PlansVariant functions config resources) entry.2
      (program.variantsFor stratum symbol)

/-- A stratum that does not negate its own relations, with the plans of its rules. -/
def PlansStratum (program : Program) (functions : Registry) (config : Config)
    (resources : Planner.Resources) (entries : List (RelationSymbol × List RulePlan))
    (stratum : Stratum) : Prop :=
  stratum.recursiveNegation = false ∧
    List.Forall₂ (PlansSymbol program functions config stratum resources) entries stratum.symbols

variable {program : Program} {stratum : Stratum}

theorem PlansSymbol.mono {entry : RelationSymbol × List RulePlan} {symbol : RelationSymbol}
    (plans : PlansSymbol program functions config stratum resources entry symbol)
    (continues : later.Continues resources) :
    PlansSymbol program functions config stratum later entry symbol :=
  ⟨plans.1, plans.2.imp fun _ _ plansVariant => plansVariant.mono continues⟩

theorem PlansStratum.mono {entries : List (RelationSymbol × List RulePlan)}
    (plans : PlansStratum program functions config resources entries stratum)
    (continues : later.Continues resources) :
    PlansStratum program functions config later entries stratum :=
  ⟨plans.1, plans.2.imp fun _ _ plansSymbol => plansSymbol.mono continues⟩

theorem planSymbol_produces (symbol : RelationSymbol) {resources : Planner.Resources}
    (valid : resources.Valid) :
    Produces (Evaluation.planSymbol program functions config stratum symbol) resources
      fun entry later => later.Continues resources ∧
        PlansSymbol program functions config stratum later entry symbol := by
  refine .bind (mapM_produces (fun plans continues => plans.mono continues)
    (fun variant _ valid => planVariant_produces valid variant) _ valid) ?_
  rintro plans later ⟨continues, planned⟩
  exact .pure ⟨continues, rfl, planned⟩

theorem planStratum_produces (stratum : Stratum) {resources : Planner.Resources}
    (valid : resources.Valid) :
    Produces (Evaluation.planStratum program functions config stratum) resources
      fun entries later => later.Continues resources ∧
        PlansStratum program functions config later entries stratum := by
  unfold Evaluation.planStratum
  split
  · exact .throw_bind
  · next noNegation =>
      refine (mapM_produces (fun plans continues => plans.mono continues)
        (fun symbol _ valid => planSymbol_produces symbol valid) _ valid).mono ?_
      rintro entries later ⟨continues, planned⟩
      exact ⟨continues, by simpa using noNegation, planned⟩

theorem planStrata_produces (strata : List Stratum) {resources : Planner.Resources}
    (valid : resources.Valid) :
    Produces (Evaluation.planStrata program functions config strata) resources
      fun rules later => later.Continues resources ∧ ∃ parts, rules = parts.flatten ∧
        List.Forall₂ (PlansStratum program functions config later) parts strata := by
  refine .bind (mapM_produces (fun plans continues => plans.mono continues)
    (fun stratum _ valid => planStratum_produces stratum valid) strata valid) ?_
  rintro parts later ⟨continues, planned⟩
  exact .pure ⟨continues, parts, rfl, planned⟩

end Datalog
