import Datalog.Proofs.Planning.Stratum
import Datalog.Proofs.Stratification

/-!
# The plans of all strata

An evaluation keeps the plans of all strata in one list.  As a relation belongs to one stratum only,
the plans that are found for it are those that were made for its stratum.
-/

namespace Datalog

namespace Evaluation

variable {meaning : Interpretation} {program : Program} {functions : Registry} {config : Config}
  {schedule : Schedule} {strata : List Stratum} {evaluation : Evaluation}
  {resources : Planner.Resources} {stratum : Stratum}

theorem SetUp.plansFor
    (setUp : SetUp program strata functions config schedule resources evaluation)
    (separate : SeparateStrata strata) (member : stratum ∈ strata) {symbol : RelationSymbol}
    (inStratum : symbol ∈ stratum.symbols) :
    List.Forall₂ (RulePlan.PlansVariant functions config resources) (evaluation.plansFor symbol)
      (program.variantsFor stratum symbol) := by
  obtain ⟨parts, rulesEq, planned⟩ := setUp.rules
  have exists_entry : ∃ entry ∈ evaluation.rules, entry.1 = symbol := by
    obtain ⟨part, inParts, -, plansSymbols⟩ := exists_left_of_forall₂ planned member
    obtain ⟨entry, inPart, same, -⟩ := exists_left_of_forall₂ plansSymbols inStratum
    exact ⟨entry, rulesEq ▸ List.mem_flatten.mpr ⟨part, inParts, inPart⟩, same⟩
  unfold Evaluation.plansFor
  cases found : evaluation.rules.reverse.find? (·.1 = symbol) with
  | none =>
      obtain ⟨entry, inRules, same⟩ := exists_entry
      have := List.find?_eq_none.mp found entry (List.mem_reverse.mpr inRules)
      simp [same] at this
  | some entry =>
      have same : entry.1 = symbol := by simpa using List.find?_some found
      have inRules := List.mem_reverse.mp (List.mem_of_find?_eq_some found)
      rw [rulesEq] at inRules
      obtain ⟨part, inParts, inPart⟩ := List.mem_flatten.mp inRules
      obtain ⟨other, otherMember, -, plansSymbols⟩ := exists_right_of_forall₂ planned inParts
      obtain ⟨other', inOther, same', plans⟩ := exists_right_of_forall₂ plansSymbols inPart
      obtain rfl : symbol = other' := same.symm.trans same'
      obtain rfl := separate stratum member other otherMember symbol inStratum inOther
      exact plans

theorem exists_entry_of_mem_plansFor {symbol : RelationSymbol} {plan : RulePlan}
    (member : plan ∈ evaluation.plansFor symbol) :
    ∃ entry ∈ evaluation.rules, entry.1 = symbol ∧ plan ∈ entry.2 := by
  unfold Evaluation.plansFor at member
  cases found : evaluation.rules.reverse.find? (·.1 = symbol) with
  | none =>
      rw [found] at member
      cases member
  | some entry =>
      rw [found] at member
      have inRules := List.mem_reverse.mp (List.mem_of_find?_eq_some found)
      exact ⟨entry, inRules, by simpa using List.find?_some found, member⟩

/-- Whatever the strata are, a plan stands for a variant of a rule of the program. -/
theorem SetUp.exists_variant
    (setUp : SetUp program strata functions config schedule resources evaluation)
    {symbol : RelationSymbol} {plan : RulePlan} (member : plan ∈ evaluation.plansFor symbol) :
    ∃ rule ∈ program.rules, ∃ symbols, ∃ variant ∈ DeltaRule.variants rule symbols,
      plan.PlansVariant functions config resources variant := by
  obtain ⟨entry, inRules, -, planMember⟩ := exists_entry_of_mem_plansFor member
  obtain ⟨parts, rulesEq, planned⟩ := setUp.rules
  rw [rulesEq] at inRules
  obtain ⟨part, inParts, inPart⟩ := List.mem_flatten.mp inRules
  obtain ⟨stratum, -, -, plansSymbols⟩ := exists_right_of_forall₂ planned inParts
  obtain ⟨other, -, -, plans⟩ := exists_right_of_forall₂ plansSymbols inPart
  obtain ⟨variant, variantMember, planned⟩ := exists_right_of_forall₂ plans planMember
  obtain ⟨rule, ruleMember, isVariant⟩ := List.mem_flatMap.mp variantMember
  exact ⟨rule, (List.mem_filter.mp ruleMember).1, stratum.symbols, variant, isVariant, planned⟩

/-- A plan of a stratum stands for a variant of one of the stratum's rules. -/
theorem SetUp.plan_of_mem
    (setUp : SetUp program strata functions config schedule resources evaluation)
    (separate : SeparateStrata strata) (member : stratum ∈ strata) {plan : RulePlan}
    (planMember : plan ∈ stratum.symbols.flatMap evaluation.plansFor) :
    ∃ rule ∈ program.rulesOf stratum.symbols,
      ∃ variant ∈ DeltaRule.variants rule stratum.symbols,
        plan.PlansVariant functions config resources variant := by
  obtain ⟨symbol, inStratum, planMember⟩ := List.mem_flatMap.mp planMember
  obtain ⟨variant, variantMember, plans⟩ :=
    exists_right_of_forall₂ (setUp.plansFor separate member inStratum) planMember
  obtain ⟨rule, ruleMember, isVariant⟩ := List.mem_flatMap.mp variantMember
  obtain ⟨inProgram, headEq⟩ := List.mem_filter.mp ruleMember
  have headSymbol : rule.head.symbol = symbol := by simpa using headEq
  exact ⟨rule, Program.mem_rulesOf.mpr ⟨inProgram, headSymbol ▸ inStratum⟩, variant, isVariant,
    plans⟩

/-- No stratum that has been planned negates within itself. -/
theorem SetUp.negatesWithin_eq_false
    (setUp : SetUp program strata functions config schedule resources evaluation)
    (layers : program.Layers strata) (member : stratum ∈ strata) :
    program.negatesWithin stratum.symbols = false := by
  obtain ⟨parts, -, planned⟩ := setUp.rules
  obtain ⟨part, -, noNegation, -⟩ := exists_left_of_forall₂ planned member
  rw [← layers.negation stratum member]
  exact noNegation

theorem SetUp.exists_plan
    (setUp : SetUp program strata functions config schedule resources evaluation)
    (separate : SeparateStrata strata) (member : stratum ∈ strata) {rule : Rule}
    (ruleMember : rule ∈ program.rulesOf stratum.symbols) {variant : DeltaRule}
    (isVariant : variant ∈ DeltaRule.variants rule stratum.symbols) :
    ∃ plan ∈ stratum.symbols.flatMap evaluation.plansFor,
      plan.PlansVariant functions config resources variant := by
  obtain ⟨inProgram, inStratum⟩ := Program.mem_rulesOf.mp ruleMember
  have variantMember : variant ∈ program.variantsFor stratum rule.head.symbol :=
    List.mem_flatMap.mpr ⟨rule, List.mem_filter.mpr ⟨inProgram, by simp⟩, isVariant⟩
  obtain ⟨plan, planMember, plans⟩ :=
    exists_left_of_forall₂ (setUp.plansFor separate member inStratum) variantMember
  exact ⟨plan, List.mem_flatMap.mpr ⟨_, inStratum, planMember⟩, plans⟩

/-- The plans of a stratum implement its rules. -/
theorem SetUp.implements
    (setUp : SetUp program strata functions config schedule resources evaluation)
    (separate : SeparateStrata strata) (member : stratum ∈ strata)
    (plannable : ∀ rule ∈ program.rulesOf stratum.symbols, rule.Plannable config stratum.symbols) :
    Implements meaning stratum.symbols (program.rulesOf stratum.symbols)
      (stratum.symbols.flatMap evaluation.plansFor) where
  sound plan planMember := by
    obtain ⟨rule, ruleMember, variant, isVariant, plans⟩ :=
      setUp.plan_of_mem separate member planMember
    exact ⟨rule, ruleMember, variant, isVariant,
      plans.standsFor isVariant (plannable rule ruleMember)⟩
  complete rule ruleMember variant isVariant := by
    obtain ⟨plan, planMember, plans⟩ := setUp.exists_plan separate member ruleMember isVariant
    exact ⟨plan, planMember, plans.standsFor isVariant (plannable rule ruleMember)⟩
  proper plan planMember := by
    obtain ⟨rule, ruleMember, variant, isVariant, plans⟩ :=
      setUp.plan_of_mem separate member planMember
    exact plans.proper isVariant (plannable rule ruleMember).negatesOutside

/-- The plans of a stratum fit the stores for suitable names of their slots. -/
theorem SetUp.exists_layout
    (setUp : SetUp program strata functions config schedule resources evaluation)
    (separate : SeparateStrata strata) (member : stratum ∈ strata)
    (symbols_nodup : stratum.symbols.Nodup)
    (plannable : ∀ rule ∈ program.rulesOf stratum.symbols, rule.Plannable config stratum.symbols)
    (wellFormed : program.WellFormed) :
    ∃ layout : Layout, layout.symbols = stratum.symbols ∧
      ∀ strategy : Strategy, strategy.Suits config →
        ∀ plan ∈ stratum.symbols.flatMap evaluation.plansFor,
          plan.Fits layout strategy (resources.workspace config schedule) := by
  classical
  let names : RulePlan → List String := fun plan =>
    if made : ∃ names, plan.Made functions (!config.eager) resources names then made.choose else []
  refine ⟨⟨names, stratum.symbols, symbols_nodup⟩, rfl, fun strategy suits plan planMember => ?_⟩
  obtain ⟨rule, ruleMember, variant, isVariant, plans⟩ :=
    setUp.plan_of_mem separate member planMember
  obtain ⟨inProgram, inStratum⟩ := Program.mem_rulesOf.mp ruleMember
  have headEq := plans.head_eq isVariant
  have uses := wellFormed.heads rule inProgram
  refine plans.made.choose_spec.fits plans.ordered (referents_workspace suits schedule) ?_ ?_ ?_ ?_
  · exact dif_pos plans.made
  · exact fun literal inBody => (plans.proper isVariant
      (plannable rule ruleMember).negatesOutside literal inBody).negatesFrozen strategy
  · rw [RulePlan.headSymbol, headEq]
    exact uses.length_eq
  · rw [RulePlan.headSymbol, headEq]
    exact inStratum

end Evaluation

end Datalog
