import Datalog.Proofs.Planning.Setup
import Datalog.Proofs.Program

/-!
# The plans of a stratum

The plans that an evaluation finds for the relations of a stratum implement the rules of the stratum,
and they fit the stores that were set up.
-/

namespace Datalog

variable {meaning : Interpretation} {functions : Registry} {config : Config} {program : Program}
  {resources : Planner.Resources} {stratum : Stratum}

theorem Strategy.mem_of_mem_growing {strategy : Strategy} {symbols : List RelationSymbol}
    {symbol : RelationSymbol} (member : symbol ∈ strategy.growing symbols) : symbol ∈ symbols := by
  cases strategy with
  | rounds => simp [growing] at member
  | eager _ => exact member

theorem BodyLiteral.Proper.negatesFrozen {symbols : List RelationSymbol} {literal : BodyLiteral}
    (proper : literal.Proper symbols) (strategy : Strategy) :
    Planner.NegatesFrozen (strategy.growing symbols) literal := by
  intro atom atomEq negated
  refine ⟨?_, fun grows => proper.negated atom atomEq negated (strategy.mem_of_mem_growing grows)⟩
  by_contra marked
  obtain ⟨other, otherEq, positive, -⟩ := proper.marked (by simpa using marked)
  obtain rfl := Literal.predicate.inj (atomEq.symm.trans otherEq)
  simp [negated] at positive

namespace DeltaRule

/-! ## Literals of prepared variants -/

/-- Isolating calls keeps the literals of a body proper. -/
theorem proper_isolateBody {symbols : List RelationSymbol} {body : List BodyLiteral}
    (proper : ∀ literal ∈ body, literal.Proper symbols) (next : Nat) :
    ∀ literal ∈ isolateBody next body, literal.Proper symbols := by
  induction body generalizing next with
  | nil => simp [isolateBody]
  | cons first body ih =>
      have rest := ih fun literal member => proper literal (List.mem_cons_of_mem _ member)
      have firstProper := proper first List.mem_cons_self
      intro literal member
      by_cases marked : ∃ atom, first = { literal := .predicate atom, delta := true }
      · obtain ⟨atom, rfl⟩ := marked
        rw [isolateBody_cons_marked] at member
        rcases List.mem_append.mp member with equation | member
        · obtain ⟨index, arg, rfl⟩ := eq_isolatedEquation_of_mem equation
          constructor
          · intro marked
            cases marked
          · intro other otherEq
            cases otherEq
        · rcases List.mem_cons.mp member with rfl | member
          · obtain ⟨other, otherEq, positive, inSymbols⟩ := firstProper.marked rfl
            obtain rfl := Literal.predicate.inj otherEq
            refine ⟨fun _ => ⟨_, rfl, positive, inSymbols⟩, ?_⟩
            rintro _ atomEq negated
            obtain rfl := Literal.predicate.inj atomEq
            simp [positive] at negated
          · exact rest _ literal member
      · rw [isolateBody_cons_other next body fun atom same => marked ⟨atom, same⟩] at member
        rcases List.mem_cons.mp member with rfl | member
        · exact firstProper
        · exact rest next literal member

theorem any_delta_isolateBody (next : Nat) (body : List BodyLiteral) :
    (isolateBody next body).any (·.delta) = body.any (·.delta) := by
  induction body generalizing next with
  | nil => rfl
  | cons first body ih =>
      by_cases marked : ∃ atom, first = { literal := .predicate atom, delta := true }
      · obtain ⟨atom, rfl⟩ := marked
        simp [isolateBody_cons_marked]
      · rw [isolateBody_cons_other next body fun atom same => marked ⟨atom, same⟩]
        simp only [List.any_cons, ih]

theorem isDelta_prepared (config : Config) (variant : DeltaRule) :
    (variant.prepared config).deltaPosition?.isSome = variant.deltaPosition?.isSome := by
  simp only [isSome_deltaPosition?, prepared]
  split
  · exact any_delta_isolateBody 0 _
  · rfl

theorem proper_prepared {symbols : List RelationSymbol} {variant : DeltaRule}
    (proper : ∀ literal ∈ variant.body, literal.Proper symbols) :
    ∀ literal ∈ (variant.prepared config).body, literal.Proper symbols := by
  unfold prepared
  split
  · exact proper_isolateBody proper 0
  · exact proper

theorem head_prepared (variant : DeltaRule) : (variant.prepared config).head = variant.head := by
  unfold prepared
  split <;> rfl

/-- The literals of a variant are proper if the rule negates no relation of the stratum. -/
theorem proper_of_mem_variants {rule : Rule} {symbols : List RelationSymbol} {variant : DeltaRule}
    (member : variant ∈ variants rule symbols)
    (negatesOutside : ∀ atom, .predicate atom ∈ rule.body → atom.negated = true →
      atom.symbol ∉ symbols) : ∀ literal ∈ variant.body, literal.Proper symbols := by
  intro literal inBody
  refine ⟨marked_of_mem_variants member inBody, fun atom atomEq negated => ?_⟩
  refine negatesOutside atom ?_ negated
  rw [← toRule_of_mem_variants member, ← atomEq]
  exact mem_toRule_body.mpr ⟨literal, inBody, rfl⟩

theorem occurrences_toRule (rule : DeltaRule) : rule.toRule.occurrences = rule.occurrences := by
  simp only [Rule.occurrences, occurrences, toRule, List.flatMap_map]
  rfl

end DeltaRule

/-! ## Plans and variants -/

/-- What a rule must not do: negate relations of its own stratum or, in an eager evaluation, use the
names of isolated calls. -/
structure Rule.Plannable (config : Config) (symbols : List RelationSymbol) (rule : Rule) : Prop where
  negatesOutside : ∀ atom, .predicate atom ∈ rule.body → atom.negated = true →
    atom.symbol ∉ symbols
  avoids : config.eager = true → DeltaRule.AvoidsIsolated rule.occurrences

namespace RulePlan.PlansVariant

variable {plan : RulePlan} {variant : DeltaRule} {rule : Rule} {symbols : List RelationSymbol}

theorem standsFor (plans : plan.PlansVariant functions config resources variant)
    (member : variant ∈ DeltaRule.variants rule symbols) (plannable : rule.Plannable config symbols) :
    plan.StandsFor meaning variant where
  isDeltaRule_eq := by
    rw [← DeltaRule.isDelta_prepared config, RulePlan.isDeltaRule,
      RulePlan.deltaPosition?, DeltaRule.isSome_deltaPosition?, DeltaRule.isSome_deltaPosition?]
    exact plans.ordered.permuted.any_eq
  consequences_eq positive negative := by
    rw [plans.ordered.consequences_eq]
    unfold DeltaRule.prepared
    split
    · next eager =>
        refine DeltaRule.consequences_isolateCalls ?_ ?_
        · intro atom inBody
          obtain ⟨other, otherEq, positive, -⟩ :=
            DeltaRule.marked_of_mem_variants member inBody rfl
          obtain rfl := Literal.predicate.inj otherEq
          exact positive
        · rw [← DeltaRule.occurrences_toRule, DeltaRule.toRule_of_mem_variants member]
          exact (plannable.avoids eager).below _
    · rfl

theorem head_eq (plans : plan.PlansVariant functions config resources variant)
    (member : variant ∈ DeltaRule.variants rule symbols) : plan.source.head = rule.head := by
  rw [plans.ordered.head_eq, DeltaRule.head_prepared, ← DeltaRule.toRule_of_mem_variants member]
  rfl

theorem proper (plans : plan.PlansVariant functions config resources variant)
    (member : variant ∈ DeltaRule.variants rule symbols)
    (negatesOutside : ∀ atom, .predicate atom ∈ rule.body → atom.negated = true →
      atom.symbol ∉ symbols) :
    ∀ literal ∈ plan.source.body, literal.Proper symbols := by
  intro literal inBody
  have inPrepared := plans.ordered.permuted.mem_iff.mp inBody
  exact DeltaRule.proper_prepared
    (DeltaRule.proper_of_mem_variants member negatesOutside) literal inPrepared

end RulePlan.PlansVariant

/-! ## Plans that fit the stores -/

/-- A strategy looks marked atoms up as the plans were made for. -/
def Strategy.Suits (config : Config) : Strategy → Prop
  | .rounds => config.eager = false
  | .eager _ => config.eager = true

/-- The stores that were set up have the indices that plans asked for. -/
theorem referents_workspace {strategy : Strategy} (suits : strategy.Suits config)
    (schedule : Schedule) :
    ((resources.workspace config schedule).referents strategy).Keeps
      (resources.referents (!config.eager)) := by
  refine ⟨.refl _, fun delta symbol number pattern requests => ?_⟩
  cases strategy with
  | rounds =>
      have rounds : config.eager = false := suits
      cases delta
      · simp only [Planner.Resources.referents, Bool.false_and, Bool.false_eq_true, if_false]
          at requests
        exact StorePlan.provides_build requests
      · simp only [Planner.Resources.referents, rounds, Bool.not_false, Bool.and_self, if_true]
          at requests
        exact StorePlan.provides_build requests
  | eager triggered =>
      have eager : config.eager = true := suits
      simp only [Planner.Resources.referents, eager, Bool.not_true, Bool.and_false,
        Bool.false_eq_true, if_false] at requests
      exact StorePlan.provides_build requests

theorem RulePlan.Made.fits {plan : RulePlan} {names : List String} {layout : Layout}
    {strategy : Strategy} {separateDeltas : Bool} {workspace : Workspace}
    (made : plan.Made functions separateDeltas resources names) {prepared : DeltaRule}
    (ordered : plan.source.OrderedFrom prepared)
    (keeps : (workspace.referents strategy).Keeps (resources.referents separateDeltas))
    (namesEq : layout.names plan = names)
    (negatesFrozen : ∀ literal ∈ plan.source.body,
      Planner.NegatesFrozen (strategy.growing layout.symbols) literal)
    (headLength : plan.source.head.args.length = plan.headSymbol.arity)
    (headSymbol : plan.headSymbol ∈ layout.symbols) : plan.Fits layout strategy workspace := by
  subst namesEq
  refine ⟨made.names_nodup, made.head.represents.mono keeps.terms (List.prefix_refl _), headLength,
    headSymbol, ?_⟩
  have counted : ∀ name, ([] ++ plan.source.body.flatMap BodyLiteral.vars).count name ≤
      plan.source.varCount name := by
    intro name
    simp [DeltaRule.varCount, DeltaRule.occurrences, List.count_append]
  have fits := made.body.fits ordered.evaluable counted negatesFrozen
  exact fits.imp fun _ _ literalFits => literalFits.keep keeps (List.prefix_refl _)

end Datalog
