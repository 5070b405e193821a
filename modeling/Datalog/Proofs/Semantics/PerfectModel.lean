import Datalog.Program
import Datalog.Proofs.Semantics.Consequence
import Mathlib.Data.List.Induction

/-!
# Perfect models

The least model of some rules contains given facts and is closed under the rules, with negated atoms
looked up in a fixed model.  Naive evaluation that reaches a fixpoint has computed it.  The perfect
model of a program is obtained by taking least models group by group, where every group of relations
comes after everything that its rules negate.  It does not depend on the grouping.
-/

namespace Datalog

variable {meaning : Interpretation}

/-! ## Least models -/

/-- The least model that contains given facts and is closed under rules, with negated atoms looked up
in a fixed model. -/
def leastModel (meaning : Interpretation) (rules : List Rule) (negative base : Model) : Model :=
  {fact | ∀ model, base ⊆ model → consequences meaning rules model negative ⊆ model →
    fact ∈ model}

theorem consequences_mono {rules : List Rule} {positive positive' negative : Model}
    (grows : positive ⊆ positive') :
    consequences meaning rules positive negative ⊆
      consequences meaning rules positive' negative := by
  rintro fact ⟨rule, member, derived⟩
  exact ⟨rule, member,
    Rule.consequences_subset (fun _ _ _ _ known => grows known) (fun _ _ _ _ known => known)
      derived⟩

theorem base_subset_leastModel {rules : List Rule} {negative base : Model} :
    base ⊆ leastModel meaning rules negative base :=
  fun _ known _ included _ => included known

theorem consequences_leastModel_subset {rules : List Rule} {negative base : Model} :
    consequences meaning rules (leastModel meaning rules negative base) negative ⊆
      leastModel meaning rules negative base := by
  intro fact derived model included closed
  have below : leastModel meaning rules negative base ⊆ model :=
    fun _ known => known model included closed
  exact closed (consequences_mono below derived)

theorem leastModel_subset {rules : List Rule} {negative base model : Model}
    (included : base ⊆ model) (closed : consequences meaning rules model negative ⊆ model) :
    leastModel meaning rules negative base ⊆ model :=
  fun _ known => known model included closed

/-- The facts that a least model adds belong to heads of its rules. -/
theorem mem_base_of_mem_leastModel {rules : List Rule} {negative base : Model}
    {fact : GroundFact} (least : fact ∈ leastModel meaning rules negative base)
    (notHead : ∀ rule ∈ rules, rule.head.symbol ≠ fact.1) : fact ∈ base := by
  have included := least {fact | (∀ rule ∈ rules, rule.head.symbol ≠ fact.1) → fact ∈ base}
    (fun _ known _ => known) ?_
  · exact included notHead
  · rintro _ ⟨rule, member, assignment, values, -, -, rfl⟩ notHead'
    exact absurd rfl (notHead' rule member)

/-! ## Naive evaluation -/

/-- No rule negates a relation that one of the rules derives. -/
def NegatesOutside (rules : List Rule) : Prop :=
  ∀ rule ∈ rules, ∀ atom, .predicate atom ∈ rule.body → atom.negated = true →
    ∀ other ∈ rules, other.head.symbol ≠ atom.symbol

theorem subset_naive {rules : List Rule} {start : Model} (rounds : Nat) :
    start ⊆ naive meaning rules start rounds := by
  induction rounds with
  | zero => exact fun _ known => known
  | succ rounds ih => exact fun _ known => Or.inl (ih known)

theorem mem_start_of_mem_naive {rules : List Rule} {start : Model} {rounds : Nat}
    {fact : GroundFact} (known : fact ∈ naive meaning rules start rounds)
    (notHead : ∀ rule ∈ rules, rule.head.symbol ≠ fact.1) : fact ∈ start := by
  induction rounds with
  | zero => exact known
  | succ rounds ih =>
      rcases known with known | ⟨rule, member, assignment, values, -, -, rfl⟩
      · exact ih known
      · exact absurd rfl (notHead rule member)

/-- Negated atoms may be looked up in the first model throughout. -/
theorem consequences_naive {rules : List Rule} {start : Model}
    (outside : NegatesOutside rules) (rounds : Nat) (positive : Model) :
    consequences meaning rules positive (naive meaning rules start rounds) =
      consequences meaning rules positive start := by
  apply Set.Subset.antisymm
  · rintro fact ⟨rule, member, derived⟩
    refine ⟨rule, member, Rule.consequences_subset (fun _ _ _ _ known => known) ?_ derived⟩
    exact fun _ _ _ _ known => subset_naive rounds known
  · rintro fact ⟨rule, member, derived⟩
    refine ⟨rule, member, Rule.consequences_subset (fun _ _ _ _ known => known) ?_ derived⟩
    intro atom inBody negated values known
    exact mem_start_of_mem_naive known (outside rule member atom inBody negated)

theorem naive_subset_leastModel {rules : List Rule} {start : Model}
    (outside : NegatesOutside rules) (rounds : Nat) :
    naive meaning rules start rounds ⊆ leastModel meaning rules start start := by
  induction rounds with
  | zero => exact base_subset_leastModel
  | succ rounds ih =>
      apply Set.union_subset ih
      rw [consequences_naive outside]
      exact (consequences_mono ih).trans consequences_leastModel_subset

/-- Naive evaluation that adds nothing any more has computed the least model. -/
theorem naive_eq_leastModel {rules : List Rule} {start : Model} {rounds : Nat}
    (outside : NegatesOutside rules)
    (fixed : naive meaning rules start (rounds + 1) = naive meaning rules start rounds) :
    naive meaning rules start rounds = leastModel meaning rules start start := by
  apply Set.Subset.antisymm (naive_subset_leastModel outside rounds)
  apply leastModel_subset (subset_naive rounds)
  rw [← consequences_naive outside rounds]
  exact Set.union_eq_left.mp fixed

theorem naive_mono {rules : List Rule} {start : Model} {fewer rounds : Nat} (bound : fewer ≤ rounds) :
    naive meaning rules start fewer ⊆ naive meaning rules start rounds := by
  induction bound with
  | refl => exact fun _ known => known
  | step _ ih => exact fun _ known => .inl (ih known)

/-- What holds in the union of all steps of naive evaluation holds after some of them. -/
theorem exists_holds_naive {rules : List Rule} {start negative : Model} {count : String → Nat}
    {assignment : Assignment} {body : List Literal}
    (holds : ∀ literal ∈ body, literal.Holds meaning
      {fact | ∃ rounds, fact ∈ naive meaning rules start rounds} negative count assignment) :
    ∃ rounds, ∀ literal ∈ body,
      literal.Holds meaning (naive meaning rules start rounds) negative count assignment := by
  have later : ∀ {fewer rounds : Nat} {literal : Literal}, fewer ≤ rounds →
      literal.Holds meaning (naive meaning rules start fewer) negative count assignment →
        literal.Holds meaning (naive meaning rules start rounds) negative count assignment :=
    fun bound holds => holds.mono (fun _ _ _ _ known => naive_mono bound known)
      fun _ _ _ _ known => known
  induction body with
  | nil => exact ⟨0, by simp⟩
  | cons literal body ih =>
      obtain ⟨rounds, restHolds⟩ := ih fun other member => holds other (List.mem_cons_of_mem _ member)
      have first : ∃ rounds, literal.Holds meaning (naive meaning rules start rounds) negative count
          assignment := by
        have here := holds literal List.mem_cons_self
        match literal, here with
        | .unification _ _ true, here => exact ⟨0, here⟩
        | .unification _ _ false, here => exact ⟨0, here⟩
        | .predicate atom, here =>
            by_cases negated : atom.negated = true
            · simp only [Literal.Holds, if_pos negated] at here ⊢
              exact ⟨0, here⟩
            · simp only [Literal.Holds, if_neg negated] at here ⊢
              obtain ⟨values, valuesEq, rounds, known⟩ := here
              exact ⟨rounds, values, valuesEq, known⟩
      obtain ⟨rounds', firstHolds⟩ := first
      refine ⟨max rounds rounds', fun other member => ?_⟩
      rcases List.mem_cons.mp member with rfl | member
      · exact later (Nat.le_max_right _ _) firstHolds
      · exact later (Nat.le_max_left _ _) (restHolds other member)

/-- Bodies are finite, so that every fact of the least model is derived in finitely many steps. -/
theorem mem_leastModel_iff_exists_naive {rules : List Rule} {start : Model}
    (outside : NegatesOutside rules) {fact : GroundFact} :
    fact ∈ leastModel meaning rules start start ↔
      ∃ rounds, fact ∈ naive meaning rules start rounds := by
  constructor
  · intro known
    refine known {fact | ∃ rounds, fact ∈ naive meaning rules start rounds}
      (fun _ stated => ⟨0, stated⟩) ?_
    rintro _ ⟨rule, member, assignment, values, holds, headEq, rfl⟩
    obtain ⟨rounds, holds⟩ := exists_holds_naive holds
    refine ⟨rounds + 1, .inr ?_⟩
    rw [consequences_naive outside]
    exact ⟨rule, member, assignment, values, holds, headEq, rfl⟩
  · rintro ⟨rounds, known⟩
    exact naive_subset_leastModel outside rounds known

/-- The least model is closed even if negated atoms are looked up in the least model. -/
theorem leastModel_closed {rules : List Rule} {start : Model} :
    consequences meaning rules (leastModel meaning rules start start)
      (leastModel meaning rules start start) ⊆ leastModel meaning rules start start := by
  rintro fact ⟨rule, member, derived⟩
  refine consequences_leastModel_subset
    ⟨rule, member, Rule.consequences_subset (fun _ _ _ _ known => known) ?_ derived⟩
  exact fun _ _ _ _ known => base_subset_leastModel known

/-- A closed model between the start and the least model is the least model. -/
theorem eq_leastModel_of_closed {rules : List Rule} {start model : Model}
    (outside : NegatesOutside rules) (lower : start ⊆ model)
    (upper : model ⊆ leastModel meaning rules start start)
    (closed : consequences meaning rules model model ⊆ model) :
    model = leastModel meaning rules start start := by
  apply Set.Subset.antisymm upper
  apply leastModel_subset lower
  rintro fact ⟨rule, member, derived⟩
  refine closed ⟨rule, member, Rule.consequences_subset (fun _ _ _ _ known => known) ?_ derived⟩
  intro atom inBody negated values known
  exact mem_base_of_mem_leastModel (upper known) (outside rule member atom inBody negated)

/-! ## Perfect models -/

namespace Program

def rulesOf (program : Program) (group : List RelationSymbol) : List Rule :=
  program.rules.filter (group.contains ·.head.symbol)

def IsDerived (program : Program) (symbol : RelationSymbol) : Prop :=
  ∃ rule ∈ program.rules, rule.head.symbol = symbol

/-- The base facts, with their calls evaluated. -/
def baseModel (meaning : Interpretation) (program : Program) : Model :=
  {fact | ∃ stated ∈ program.facts, ∃ assignment, stated.symbol = fact.1 ∧
    Term.evalList meaning assignment stated.args = some fact.2}

/-- The model obtained from the base facts by closing them under the rules, group by group. -/
def perfectModel (meaning : Interpretation) (program : Program)
    (groups : List (List RelationSymbol)) : Model :=
  groups.foldl (fun model group => leastModel meaning (program.rulesOf group) model model)
    (program.baseModel meaning)

/-- A grouping of the derived relations in an order of evaluation: a rule for a relation of a group
mentions derived relations of earlier groups and, without negation, of the same group. -/
structure IsStratification (program : Program) (groups : List (List RelationSymbol)) : Prop where
  covers : ∀ rule ∈ program.rules, ∃ group ∈ groups, rule.head.symbol ∈ group
  disjoint : groups.Pairwise List.Disjoint
  respects : ∀ before group after, groups = before ++ group :: after →
    ∀ rule ∈ program.rules, rule.head.symbol ∈ group →
      ∀ atom, .predicate atom ∈ rule.body → program.IsDerived atom.symbol →
        atom.symbol ∈ before.flatten ∨ atom.negated = false ∧ atom.symbol ∈ group

variable {program : Program}

theorem mem_rulesOf {group : List RelationSymbol} {rule : Rule} :
    rule ∈ program.rulesOf group ↔ rule ∈ program.rules ∧ rule.head.symbol ∈ group := by
  simp [rulesOf]

theorem perfectModel_append (before : List (List RelationSymbol)) (group : List RelationSymbol) :
    program.perfectModel meaning (before ++ [group]) =
      leastModel meaning (program.rulesOf group) (program.perfectModel meaning before)
        (program.perfectModel meaning before) := by
  simp [perfectModel]

theorem perfectModel_mono (before after : List (List RelationSymbol)) :
    program.perfectModel meaning before ⊆ program.perfectModel meaning (before ++ after) := by
  induction after using List.reverseRecOn with
  | nil => simp
  | append_singleton after group ih =>
      rw [← List.append_assoc, perfectModel_append]
      exact ih.trans base_subset_leastModel

/-- Groups add facts of their own relations, as far as these are derived. -/
theorem mem_perfectModel_of_append {before after : List (List RelationSymbol)}
    {fact : GroundFact} (known : fact ∈ program.perfectModel meaning (before ++ after))
    (elsewhere : fact.1 ∈ after.flatten → ¬ program.IsDerived fact.1) :
    fact ∈ program.perfectModel meaning before := by
  induction after using List.reverseRecOn with
  | nil => simpa using known
  | append_singleton after group ih =>
      rw [← List.append_assoc, perfectModel_append] at known
      refine ih (mem_base_of_mem_leastModel known ?_) fun member => elsewhere (by simp [member])
      intro rule member headEq
      obtain ⟨inProgram, inGroup⟩ := mem_rulesOf.mp member
      exact elsewhere (by simp [← headEq, inGroup]) ⟨rule, inProgram, headEq⟩

namespace IsStratification

variable {groups : List (List RelationSymbol)}

/-- The relations that a group may mention are not derived by later groups. -/
theorem not_mem_later (stratified : program.IsStratification groups)
    {before after : List (List RelationSymbol)} {group : List RelationSymbol}
    (split : groups = before ++ group :: after) {symbol : RelationSymbol}
    (early : symbol ∈ before.flatten ∨ symbol ∈ group) : symbol ∉ after.flatten := by
  intro late
  obtain ⟨other, otherMember, inOther⟩ := List.mem_flatten.mp late
  have disjoint := stratified.disjoint
  rw [split, List.pairwise_append, List.pairwise_cons] at disjoint
  obtain ⟨-, ⟨groupApart, -⟩, beforeApart⟩ := disjoint
  rcases early with early | early
  · obtain ⟨first, firstMember, inFirst⟩ := List.mem_flatten.mp early
    exact beforeApart first firstMember other (by simp [otherMember]) inFirst inOther
  · exact groupApart other otherMember early inOther

/-- A relation that a rule of a group mentions has all its facts once the group is done. -/
theorem mem_of_mentioned (stratified : program.IsStratification groups)
    {before after : List (List RelationSymbol)} {group : List RelationSymbol}
    (split : groups = before ++ group :: after) {rule : Rule} (inProgram : rule ∈ program.rules)
    (inGroup : rule.head.symbol ∈ group) {atom : Atom} (inBody : .predicate atom ∈ rule.body)
    {values : List Value} (known : (atom.symbol, values) ∈ program.perfectModel meaning groups) :
    (atom.symbol, values) ∈ program.perfectModel meaning (before ++ [group]) := by
  rw [split, List.append_cons] at known
  refine mem_perfectModel_of_append known fun late derived => ?_
  have early := stratified.respects before group after split rule inProgram inGroup atom inBody
    derived
  exact stratified.not_mem_later split (early.imp_right And.right) late

/-- A relation that a rule of a group negates has all its facts before the group. -/
theorem mem_of_negated (stratified : program.IsStratification groups)
    {before after : List (List RelationSymbol)} {group : List RelationSymbol}
    (split : groups = before ++ group :: after) {rule : Rule} (inProgram : rule ∈ program.rules)
    (inGroup : rule.head.symbol ∈ group) {atom : Atom} (inBody : .predicate atom ∈ rule.body)
    (negated : atom.negated = true) {values : List Value}
    (known : (atom.symbol, values) ∈ program.perfectModel meaning groups) :
    (atom.symbol, values) ∈ program.perfectModel meaning before := by
  rw [split] at known
  refine mem_perfectModel_of_append known fun late derived => ?_
  rcases stratified.respects before group after split rule inProgram inGroup atom inBody derived
    with early | ⟨positive, -⟩
  · rcases List.mem_append.mp (List.flatten_cons ▸ late : atom.symbol ∈ group ++ after.flatten)
      with inGroup' | late
    · obtain ⟨first, firstMember, inFirst⟩ := List.mem_flatten.mp early
      have disjoint := stratified.disjoint
      rw [split, List.pairwise_append] at disjoint
      exact disjoint.2.2 first firstMember group (by simp) inFirst inGroup'
    · exact stratified.not_mem_later split (.inl early) late
  · simp [negated] at positive

theorem closed (stratified : program.IsStratification groups) :
    consequences meaning program.rules (program.perfectModel meaning groups)
      (program.perfectModel meaning groups) ⊆ program.perfectModel meaning groups := by
  rintro fact ⟨rule, inProgram, derived⟩
  obtain ⟨group, groupMember, inGroup⟩ := stratified.covers rule inProgram
  obtain ⟨before, after, split⟩ := List.append_of_mem groupMember
  have early : fact ∈ program.perfectModel meaning (before ++ [group]) := by
    rw [perfectModel_append]
    refine consequences_leastModel_subset ⟨rule, mem_rulesOf.mpr ⟨inProgram, inGroup⟩, ?_⟩
    rw [← perfectModel_append]
    refine Rule.consequences_subset ?_ ?_ derived
    · intro atom inBody _ values known
      exact stratified.mem_of_mentioned split inProgram inGroup inBody known
    · intro atom inBody _ values known
      rw [split]
      exact perfectModel_mono before _ known
  rw [split, List.append_cons]
  exact perfectModel_mono _ after early

/-- The perfect model is least among the models that are closed while negated atoms are looked up in
the perfect model. -/
theorem least (stratified : program.IsStratification groups) {model : Model}
    (included : program.baseModel meaning ⊆ model)
    (closed : consequences meaning program.rules model (program.perfectModel meaning groups) ⊆
      model) :
    program.perfectModel meaning groups ⊆ model := by
  suffices ∀ before after, groups = before ++ after →
      program.perfectModel meaning before ⊆ model from
    this groups [] (by simp)
  intro before
  induction before using List.reverseRecOn with
  | nil => exact fun _ _ => included
  | append_singleton before group ih =>
      intro after split
      rw [List.append_assoc, List.singleton_append] at split
      rw [perfectModel_append]
      refine leastModel_subset (ih _ split) ?_
      rintro fact ⟨rule, member, derived⟩
      obtain ⟨inProgram, inGroup⟩ := mem_rulesOf.mp member
      refine closed ⟨rule, inProgram, Rule.consequences_subset ?_ ?_ derived⟩
      · exact fun _ _ _ _ known => known
      · intro atom inBody negated values known
        exact stratified.mem_of_negated split inProgram inGroup inBody negated known

/-- A relation without rules holds its base facts. -/
theorem mem_baseModel (_ : program.IsStratification groups) {fact : GroundFact}
    (known : fact ∈ program.perfectModel meaning groups) (underived : ¬ program.IsDerived fact.1) :
    fact ∈ program.baseModel meaning := by
  rw [← List.nil_append groups] at known
  exact mem_perfectModel_of_append known fun _ => underived

theorem base_subset (_ : program.IsStratification groups) :
    program.baseModel meaning ⊆ program.perfectModel meaning groups :=
  perfectModel_mono [] groups

/-- Two groupings agree on the relations of the groups that are done. -/
private theorem subset_upTo {groups' : List (List RelationSymbol)}
    (stratified : program.IsStratification groups)
    (stratified' : program.IsStratification groups') {before after : List (List RelationSymbol)}
    {group : List RelationSymbol}
    (split : groups = before ++ group :: after ∨ groups' = before ++ group :: after)
    (agree : ∀ fact : GroundFact, fact.1 ∈ before.flatten →
      (fact ∈ program.perfectModel meaning groups ↔ fact ∈ program.perfectModel meaning groups'))
    {fact : GroundFact} (inGroup : fact.1 ∈ group)
    (known : fact ∈ program.perfectModel meaning groups) :
    fact ∈ program.perfectModel meaning groups' := by
  -- The model is the least one, so that what both groupings share only has to be closed.
  let shared : Model := {fact | fact ∈ program.perfectModel meaning groups ∧
    (fact.1 ∈ group → fact ∈ program.perfectModel meaning groups')}
  have mentioned : ∀ {rule : Rule}, rule ∈ program.rules → rule.head.symbol ∈ group →
      ∀ {atom : Atom}, .predicate atom ∈ rule.body → program.IsDerived atom.symbol →
        atom.symbol ∈ before.flatten ∨ atom.negated = false ∧ atom.symbol ∈ group := by
    intro rule inProgram headInGroup atom inBody derived
    rcases split with split | split
    · exact stratified.respects before group after split rule inProgram headInGroup atom inBody
        derived
    · exact stratified'.respects before group after split rule inProgram headInGroup atom inBody
        derived
  have included : program.baseModel meaning ⊆ shared := fun _ stated =>
    ⟨stratified.base_subset stated, fun _ => stratified'.base_subset stated⟩
  have closed : consequences meaning program.rules shared (program.perfectModel meaning groups) ⊆
      shared := by
    rintro fact ⟨rule, inProgram, derived⟩
    have headEq : fact.1 = rule.head.symbol := by
      obtain ⟨_, _, -, -, rfl⟩ := derived
      rfl
    refine ⟨stratified.closed ⟨rule, inProgram, Rule.consequences_subset ?_ ?_ derived⟩,
      fun headInGroup => stratified'.closed
        ⟨rule, inProgram, Rule.consequences_subset ?_ ?_ derived⟩⟩
    · exact fun _ _ _ _ known => known.1
    · exact fun _ _ _ _ known => known
    · intro atom inBody _ values known
      by_cases isDerived : program.IsDerived atom.symbol
      · rcases mentioned inProgram (headEq ▸ headInGroup) inBody isDerived with early | ⟨-, same⟩
        · exact (agree (atom.symbol, values) early).mp known.1
        · exact known.2 same
      · exact stratified'.base_subset (stratified.mem_baseModel known.1 isDerived)
    · intro atom inBody negated values known
      by_cases isDerived : program.IsDerived atom.symbol
      · rcases mentioned inProgram (headEq ▸ headInGroup) inBody isDerived with
          early | ⟨positive, -⟩
        · exact (agree (atom.symbol, values) early).mpr known
        · simp [negated] at positive
      · exact stratified.base_subset (stratified'.mem_baseModel known isDerived)
  exact (stratified.least included closed known).2 inGroup

/-- The perfect model does not depend on how the relations are grouped. -/
theorem perfectModel_eq {groups' : List (List RelationSymbol)}
    (stratified : program.IsStratification groups)
    (stratified' : program.IsStratification groups') :
    program.perfectModel meaning groups = program.perfectModel meaning groups' := by
  have agree : ∀ before after, groups = before ++ after → ∀ fact : GroundFact,
      fact.1 ∈ before.flatten → (fact ∈ program.perfectModel meaning groups ↔
        fact ∈ program.perfectModel meaning groups') := by
    intro before
    induction before using List.reverseRecOn with
    | nil => simp
    | append_singleton before group ih =>
        intro after split fact inGroups
        rw [List.append_assoc, List.singleton_append] at split
        have known := ih _ split
        rcases List.mem_append.mp (List.flatten_append ▸ inGroups) with early | late
        · exact known fact early
        · have inGroup : fact.1 ∈ group := by simpa using late
          exact ⟨subset_upTo stratified stratified' (.inl split) known inGroup,
            subset_upTo stratified' stratified (.inr split)
              (fun fact early => (known fact early).symm) inGroup⟩
  ext fact
  by_cases isDerived : program.IsDerived fact.1
  · obtain ⟨rule, inProgram, headEq⟩ := isDerived
    obtain ⟨group, groupMember, inGroup⟩ := stratified.covers rule inProgram
    exact agree groups [] (by simp) fact
      (List.mem_flatten.mpr ⟨group, groupMember, headEq ▸ inGroup⟩)
  · exact ⟨fun known => stratified'.base_subset (stratified.mem_baseModel known isDerived),
      fun known => stratified.base_subset (stratified'.mem_baseModel known isDerived)⟩

end IsStratification

end Program

end Datalog
