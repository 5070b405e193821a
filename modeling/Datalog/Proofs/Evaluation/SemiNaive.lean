import Datalog.Proofs.Evaluation.Round
import Datalog.Proofs.Semantics.PerfectModel

/-!
# Plans and rules

The plans of a stratum stand for the variants of its rules.  In the first round they derive what the
rules derive.  Later the plans of delta rules are enough: an instance of a rule without a recent fact
held before and its head is known.
-/

namespace Datalog

variable {meaning : Interpretation}

/-- A marked literal is a positive atom of the stratum, and a negated atom is not of the stratum. -/
structure BodyLiteral.Proper (symbols : List RelationSymbol) (literal : BodyLiteral) : Prop where
  marked : literal.delta = true →
    ∃ atom, literal.literal = .predicate atom ∧ atom.negated = false ∧ atom.symbol ∈ symbols
  negated : ∀ atom, literal.literal = .predicate atom → atom.negated = true → atom.symbol ∉ symbols

/-- A plan derives what a variant of a rule derives, and has a delta literal if the variant does. -/
structure RulePlan.StandsFor (meaning : Interpretation) (plan : RulePlan) (variant : DeltaRule) :
    Prop where
  isDeltaRule_eq : plan.isDeltaRule = variant.deltaPosition?.isSome
  consequences_eq : ∀ positive negative,
    plan.source.consequences meaning positive negative =
      variant.consequences meaning positive negative

/-- Plans stand for the variants of some rules, and every variant has a plan. -/
structure Implements (meaning : Interpretation) (symbols : List RelationSymbol)
    (rules : List Rule) (plans : List RulePlan) : Prop where
  sound : ∀ plan ∈ plans, ∃ rule ∈ rules,
    ∃ variant ∈ DeltaRule.variants rule symbols, plan.StandsFor meaning variant
  complete : ∀ rule ∈ rules, ∀ variant ∈ DeltaRule.variants rule symbols,
    ∃ plan ∈ plans, plan.StandsFor meaning variant
  proper : ∀ plan ∈ plans, ∀ literal ∈ plan.source.body, literal.Proper symbols

/-- All that rules derive from an earlier model is known, and what was added since is recent. -/
def CaughtUp (meaning : Interpretation) (symbols : List RelationSymbol) (rules : List Rule)
    (model recent : Model) : Prop :=
  ∃ earlier ⊆ model, consequences meaning rules earlier earlier ⊆ model ∧
    ∀ fact ∈ model, fact ∈ earlier ∨ fact ∈ recent ∧ fact.1 ∈ symbols

/-- Running some plans leads from a model to the next one of naive evaluation. -/
structure Suffices (meaning : Interpretation) (rules : List Rule) (plans : List RulePlan)
    (model recent : Model) : Prop where
  sound : planConsequences meaning plans (reading model recent) model ⊆
    consequences meaning rules model model
  complete : consequences meaning rules model model ⊆
    model ∪ planConsequences meaning plans (reading model recent) model

namespace Implements

variable {symbols : List RelationSymbol} {rules : List Rule} {plans : List RulePlan}

/-- The facts of deltas are facts of the relations, so that plans derive no more than the rules. -/
theorem planConsequences_subset (implements : Implements meaning symbols rules plans)
    {chosen : List RulePlan} (fromPlans : ∀ plan ∈ chosen, plan ∈ plans)
    (positive : Bool → Model) (negative : Model) (included : positive true ⊆ positive false) :
    planConsequences meaning chosen positive negative ⊆
      consequences meaning rules (positive false) negative := by
  rintro fact ⟨plan, member, derived⟩
  obtain ⟨rule, ruleMember, variant, variantMember, standsFor⟩ :=
    implements.sound plan (fromPlans plan member)
  rw [standsFor.consequences_eq] at derived
  refine ⟨rule, ruleMember, ?_⟩
  rw [← DeltaRule.toRule_of_mem_variants variantMember]
  exact DeltaRule.consequences_subset_toRule (fun _ _ _ known => included known) derived

/-- If the delta holds all facts of the stratum, the plans derive all that the rules derive. -/
theorem consequences_subset (implements : Implements meaning symbols rules plans)
    (positive : Bool → Model) (negative : Model)
    (included : ∀ fact ∈ positive false, fact.1 ∈ symbols → fact ∈ positive true) :
    consequences meaning rules (positive false) negative ⊆
      planConsequences meaning plans positive negative := by
  rintro fact ⟨rule, ruleMember, derived⟩
  obtain ⟨variant, variantMember⟩ := DeltaRule.exists_mem_variants rule symbols
  obtain ⟨plan, planMember, standsFor⟩ := implements.complete rule ruleMember variant variantMember
  refine ⟨plan, planMember, ?_⟩
  rw [standsFor.consequences_eq]
  rw [← DeltaRule.toRule_of_mem_variants variantMember] at derived
  refine DeltaRule.toRule_consequences_subset ?_ derived
  intro atom inBody values known
  obtain ⟨marked, atomEq, -, inStratum⟩ :=
    DeltaRule.marked_of_mem_variants variantMember inBody rfl
  obtain rfl : atom = marked := Literal.predicate.inj atomEq
  exact included _ known inStratum

/-- In the first round every fact of the stratum is recent. -/
theorem suffices_first (implements : Implements meaning symbols rules plans) (model : Model) :
    Suffices meaning rules plans model {fact ∈ model | fact.1 ∈ symbols} where
  sound := implements.planConsequences_subset (fun _ member => member) (reading model _) model
    fun _ known => known.1
  complete := by
    intro fact derived
    have included : ∀ fact ∈ model, fact.1 ∈ symbols →
        fact ∈ ({fact ∈ model | fact.1 ∈ symbols} : Model) :=
      fun _ known inStratum => ⟨known, inStratum⟩
    exact .inr (implements.consequences_subset (reading model _) model included derived)

/-- Afterwards delta rules are enough. -/
theorem suffices_later (implements : Implements meaning symbols rules plans) {model recent : Model}
    (caughtUp : CaughtUp meaning symbols rules model recent) (included : recent ⊆ model) :
    Suffices meaning rules (plans.filter RulePlan.isDeltaRule) model recent where
  sound := implements.planConsequences_subset (fun _ member => (List.mem_filter.mp member).1)
    (reading model recent) model included
  complete := by
    rintro fact ⟨rule, ruleMember, derived⟩
    obtain ⟨earlier, earlierIncluded, done, split⟩ := caughtUp
    rcases DeltaRule.consequences_subset_union split derived with old | new
    · refine .inl (done ⟨rule, ruleMember, Rule.consequences_subset ?_ ?_ old⟩)
      · exact fun _ _ _ _ known => known
      · exact fun _ _ _ _ known => earlierIncluded known
    · obtain ⟨variant, variantMember, isDelta, derived⟩ := new
      obtain ⟨plan, planMember, standsFor⟩ :=
        implements.complete rule ruleMember variant variantMember
      refine .inr ⟨plan, List.mem_filter.mpr ⟨planMember, ?_⟩, ?_⟩
      · rw [standsFor.isDeltaRule_eq, isDelta]
      · rwa [standsFor.consequences_eq]

/-- A model is closed if the plans have been run against the start and the delta rules against the
model: a rule without a delta literal reads only what did not change. -/
theorem closed (implements : Implements meaning symbols rules plans) {start model : Model}
    (lower : start ⊆ model) (elsewhere : ∀ fact ∈ model, fact.1 ∉ symbols → fact ∈ start)
    (first : planConsequences meaning plans (fun _ => start) start ⊆ model)
    (last : planConsequences meaning (plans.filter RulePlan.isDeltaRule) (fun _ => model) model ⊆
      model) : consequences meaning rules model model ⊆ model := by
  rintro fact ⟨rule, ruleMember, derived⟩
  obtain ⟨variant, variantMember⟩ := DeltaRule.exists_mem_variants rule symbols
  rcases DeltaRule.isDelta_or_of_mem_variants variantMember with isDelta | reads
  · obtain ⟨plan, planMember, standsFor⟩ :=
      implements.complete rule ruleMember variant variantMember
    refine last ⟨plan, List.mem_filter.mpr ⟨planMember, ?_⟩, ?_⟩
    · rw [standsFor.isDeltaRule_eq, isDelta]
    · rw [standsFor.consequences_eq]
      rw [← DeltaRule.toRule_of_mem_variants variantMember] at derived
      exact DeltaRule.toRule_consequences_subset (fun _ _ _ known => known) derived
  · have before : fact ∈ consequences meaning rules start start := by
      refine ⟨rule, ruleMember, Rule.consequences_subset ?_ ?_ derived⟩
      · intro atom inBody positive values known
        exact elsewhere _ known (reads atom inBody positive)
      · exact fun _ _ _ _ known => lower known
    exact first (implements.consequences_subset (fun _ => start) start
      (fun _ known _ => known) before)

end Implements

namespace Suffices

variable {rules : List Rule} {plans : List RulePlan} {model recent : Model}

theorem union_eq (covered : Suffices meaning rules plans model recent) :
    model ∪ planConsequences meaning plans (reading model recent) model =
      naiveStep meaning rules model := by
  apply Set.Subset.antisymm
  · exact Set.union_subset_union_right model covered.sound
  · exact Set.union_subset Set.subset_union_left covered.complete

/-- The new facts are the consequences that were not known. -/
theorem sdiff_eq (covered : Suffices meaning rules plans model recent) :
    planConsequences meaning plans (reading model recent) model \ model =
      consequences meaning rules model model \ model := by
  ext fact
  simp only [Set.mem_sdiff]
  constructor
  · rintro ⟨derived, unknown⟩
    exact ⟨covered.sound derived, unknown⟩
  · rintro ⟨derived, unknown⟩
    exact ⟨(covered.complete derived).resolve_left unknown, unknown⟩

/-- After a round everything is derived that the model before the round leads to. -/
theorem caughtUp (covered : Suffices meaning rules plans model recent)
    {symbols : List RelationSymbol} {fresh : Model}
    (split : planConsequences meaning plans (reading model recent) model ⊆ model ∪ fresh)
    (inside : ∀ fact ∈ fresh, fact.1 ∈ symbols) :
    CaughtUp meaning symbols rules (naiveStep meaning rules model) fresh := by
  refine ⟨model, Set.subset_union_left, Set.subset_union_right, ?_⟩
  rintro fact (known | derived)
  · exact .inl known
  · rcases covered.complete derived with known | derived
    · exact .inl known
    · exact (split derived).imp id fun isFresh => ⟨isFresh, inside fact isFresh⟩

end Suffices

end Datalog
