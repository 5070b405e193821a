import Datalog.Proofs.Semantics.Consequence

/-!
# What the variants of a rule derive

A marked atom is looked up in a delta instead of the whole relation.  As long as the delta is part of
the relation, a variant derives no more than its rule, and the variants of a rule together derive
everything that the rule derives with the help of a fact of the delta.  The order of a body's literals
does not matter.
-/

namespace Datalog

/-- Atoms are looked up in a whole model and, where they are marked, in a delta. -/
def reading (whole delta : Model) : Bool → Model
  | false => whole
  | true => delta

theorem reading_subset {whole delta : Model} (included : delta ⊆ whole) (marked : Bool) :
    reading whole delta marked ⊆ whole := by
  cases marked with
  | true => exact included
  | false => exact fun _ known => known

variable {meaning : Interpretation}

namespace DeltaRule

/-! ## Marks and their order -/

theorem varCount_toRule (rule : DeltaRule) : rule.toRule.varCount = rule.varCount := by
  funext name
  simp only [Rule.varCount, Rule.occurrences, varCount, occurrences, toRule, List.flatMap_map]
  rfl

theorem toRule_ofRule (rule : Rule) : (ofRule rule).toRule = rule := by
  have : (rule.body.map fun literal => ({ literal } : BodyLiteral)).map (·.literal) = rule.body := by
    apply List.ext_getElem <;> simp
  simp [ofRule, toRule, this, -List.map_map]

theorem toRule_markedAt (rule : Rule) (position : Nat) :
    (markedAt rule position).toRule = rule := by
  have : (rule.body.mapIdx fun i literal =>
      ({ literal, delta := i = position } : BodyLiteral)).map (·.literal) = rule.body := by
    apply List.ext_getElem <;> simp
  simp [markedAt, toRule, this]

theorem toRule_of_mem_variants {rule : Rule} {stratum : List RelationSymbol} {variant : DeltaRule}
    (member : variant ∈ variants rule stratum) : variant.toRule = rule := by
  unfold variants at member
  split at member
  · obtain rfl := List.mem_singleton.mp member
    exact toRule_ofRule rule
  · obtain ⟨position, -, rfl⟩ := List.mem_map.mp member
    exact toRule_markedAt rule position

theorem mem_toRule_body {rule : DeltaRule} {literal : Literal} :
    literal ∈ rule.toRule.body ↔ ∃ marked ∈ rule.body, marked.literal = literal := by
  simp [toRule]

/-- The order of the literals is irrelevant. -/
theorem varCount_congr {first second : DeltaRule} (sameHead : first.head = second.head)
    (permuted : first.body.Perm second.body) : first.varCount = second.varCount := by
  funext name
  simp only [varCount, occurrences, sameHead, List.count_append]
  rw [(permuted.flatMap_right BodyLiteral.vars).count_eq]

theorem consequences_congr {first second : DeltaRule} {positive : Bool → Model}
    {negative : Model} (sameHead : first.head = second.head)
    (permuted : first.body.Perm second.body) :
    first.consequences meaning positive negative =
      second.consequences meaning positive negative := by
  unfold consequences
  simp only [varCount_congr sameHead permuted, sameHead, permuted.mem_iff]

/-! ## Variants and their rules -/

/-- A variant derives no more than its rule if the deltas are part of the relations. -/
theorem consequences_subset_toRule {rule : DeltaRule} {positive : Bool → Model}
    {negative : Model}
    (included : ∀ atom, { literal := .predicate atom, delta := true } ∈ rule.body →
      ∀ values, (atom.symbol, values) ∈ positive true → (atom.symbol, values) ∈ positive false) :
    rule.consequences meaning positive negative ⊆
      rule.toRule.consequences meaning (positive false) negative := by
  rintro fact ⟨assignment, values, holds, headEq, factEq⟩
  refine ⟨assignment, values, fun literal member => ?_, headEq, factEq⟩
  obtain ⟨marked, inBody, rfl⟩ := mem_toRule_body.mp member
  have holds := holds marked inBody
  rw [BodyLiteral.Holds, ← varCount_toRule] at holds
  refine holds.mono ?_ fun _ _ _ _ known => known
  intro atom atomEq _ values known
  obtain ⟨literal, delta⟩ := marked
  cases delta
  · exact known
  · cases atomEq
    exact included atom inBody values known

/-- A variant derives as much as its rule if the deltas hold the relations they are read for. -/
theorem toRule_consequences_subset {rule : DeltaRule} {positive : Bool → Model}
    {negative : Model}
    (included : ∀ atom, { literal := .predicate atom, delta := true } ∈ rule.body →
      ∀ values, (atom.symbol, values) ∈ positive false → (atom.symbol, values) ∈ positive true) :
    rule.toRule.consequences meaning (positive false) negative ⊆
      rule.consequences meaning positive negative := by
  rintro fact ⟨assignment, values, holds, headEq, factEq⟩
  refine ⟨assignment, values, fun marked inBody => ?_, headEq, factEq⟩
  have holds := holds marked.literal (mem_toRule_body.mpr ⟨marked, inBody, rfl⟩)
  rw [varCount_toRule] at holds
  refine Literal.Holds.mono ?_ (fun _ _ _ _ known => known) holds
  intro atom atomEq _ values known
  obtain ⟨literal, delta⟩ := marked
  cases delta
  · exact known
  · cases atomEq
    exact included atom inBody values known

/-! ## Recursive occurrences -/

theorem mem_recursivePositions {rule : Rule} {stratum : List RelationSymbol} {position : Nat} :
    position ∈ recursivePositions rule stratum ↔
      ∃ atom, rule.body[position]? = some (.predicate atom) ∧ atom.negated = false ∧
        atom.symbol ∈ stratum := by
  simp only [recursivePositions, List.mem_filterMap, Prod.exists, Option.ite_none_right_eq_some,
    Option.some.injEq]
  constructor
  · rintro ⟨literal, place, member, recursive, rfl⟩
    have atPlace := List.mem_zipIdx_iff_getElem?.mp member
    cases literal with
    | unification => simp [isRecursiveLiteral] at recursive
    | predicate atom =>
        exact ⟨atom, by simpa using atPlace, by simpa [isRecursiveLiteral] using recursive⟩
  · rintro ⟨atom, atPlace, positive, inStratum⟩
    exact ⟨.predicate atom, position, List.mem_zipIdx_iff_getElem?.mpr (by simpa using atPlace),
      by simp [isRecursiveLiteral, positive, inStratum], rfl⟩

/-- The marked literals of a variant are positive atoms of the stratum. -/
theorem marked_of_mem_variants {rule : Rule} {stratum : List RelationSymbol}
    {variant : DeltaRule} (member : variant ∈ variants rule stratum) {literal : BodyLiteral}
    (inBody : literal ∈ variant.body) (marked : literal.delta = true) :
    ∃ atom, literal.literal = .predicate atom ∧ atom.negated = false ∧ atom.symbol ∈ stratum := by
  unfold variants at member
  split at member
  · obtain rfl := List.mem_singleton.mp member
    obtain ⟨_, _, rfl⟩ := List.mem_map.mp inBody
    simp at marked
  · obtain ⟨position, isPosition, rfl⟩ := List.mem_map.mp member
    obtain ⟨atom, atPosition, recursive⟩ := mem_recursivePositions.mp isPosition
    obtain ⟨place, inside, rfl⟩ := List.mem_mapIdx.mp inBody
    simp only [decide_eq_true_eq] at marked
    subst marked
    rw [List.getElem?_eq_getElem inside, Option.some.injEq] at atPosition
    exact ⟨atom, atPosition, recursive⟩

theorem isSome_deltaPosition?_markedAt {rule : Rule} {position : Nat}
    (inside : position < rule.body.length) :
    (markedAt rule position).deltaPosition?.isSome = true := by
  rw [isSome_deltaPosition?, List.any_eq_true]
  exact ⟨_, List.mem_mapIdx.mpr ⟨position, inside, rfl⟩, by simp⟩

/-- A variant has a marked literal or is the whole rule, and then no literal of the rule reads the
stratum. -/
theorem isDelta_or_of_mem_variants {rule : Rule} {stratum : List RelationSymbol}
    {variant : DeltaRule} (member : variant ∈ variants rule stratum) :
    variant.deltaPosition?.isSome = true ∨
      ∀ atom, .predicate atom ∈ rule.body → atom.negated = false → atom.symbol ∉ stratum := by
  unfold variants at member
  split at member
  · next noPositions =>
      right
      intro atom inBody positive inStratum
      obtain ⟨position, atPosition⟩ := List.mem_iff_getElem?.mp inBody
      have : position ∈ recursivePositions rule stratum :=
        mem_recursivePositions.mpr ⟨atom, atPosition, positive, inStratum⟩
      simp [noPositions] at this
  · left
    obtain ⟨position, isPosition, rfl⟩ := List.mem_map.mp member
    obtain ⟨atom, atPosition, -⟩ := mem_recursivePositions.mp isPosition
    exact isSome_deltaPosition?_markedAt (List.getElem?_eq_some_iff.mp atPosition).1

theorem exists_mem_variants (rule : Rule) (stratum : List RelationSymbol) :
    ∃ variant, variant ∈ variants rule stratum := by
  unfold variants
  split
  · exact ⟨_, List.mem_singleton_self _⟩
  · next positions nonempty =>
      cases listed : recursivePositions rule stratum with
      | nil => exact absurd listed nonempty
      | cons position others => exact ⟨_, List.mem_map_of_mem List.mem_cons_self⟩

/-- An instance of a rule holds in a known model, or one of its facts is in the delta and the variant
for that occurrence derives its head. -/
theorem consequences_subset_union {rule : Rule} {stratum : List RelationSymbol}
    {known delta whole negative : Model}
    (split : ∀ fact ∈ whole, fact ∈ known ∨ fact ∈ delta ∧ fact.1 ∈ stratum) :
    rule.consequences meaning whole negative ⊆
      rule.consequences meaning known negative ∪
        {fact | ∃ variant ∈ variants rule stratum, variant.deltaPosition?.isSome = true ∧
          fact ∈ variant.consequences meaning (reading whole delta) negative} := by
  rintro fact ⟨assignment, values, holds, headEq, rfl⟩
  by_cases recent : ∃ (position : Nat) (atom : Atom) (values : List Value),
      rule.body[position]? = some (.predicate atom) ∧
      atom.negated = false ∧ Term.evalList meaning assignment atom.args = some values ∧
        (atom.symbol, values) ∈ delta ∧ atom.symbol ∈ stratum
  · -- The variant that marks the atom with the recent fact derives the head.
    right
    obtain ⟨position, atom, atomValues, atPosition, positive, evaluated, inDelta, inStratum⟩ :=
      recent
    have isPosition : position ∈ recursivePositions rule stratum :=
      mem_recursivePositions.mpr ⟨atom, atPosition, positive, inStratum⟩
    have isVariant : markedAt rule position ∈ variants rule stratum := by
      unfold variants
      split
      · next noPositions => simp [noPositions] at isPosition
      · exact List.mem_map_of_mem isPosition
    refine ⟨_, isVariant, ?_, assignment, values, ?_, headEq, rfl⟩
    · exact isSome_deltaPosition?_markedAt (List.getElem?_eq_some_iff.mp atPosition).1
    · intro literal inBody
      obtain ⟨place, inside, rfl⟩ := List.mem_mapIdx.mp inBody
      have literalHolds := holds rule.body[place] (List.getElem_mem inside)
      rw [BodyLiteral.Holds, ← varCount_toRule, toRule_markedAt]
      by_cases here : place = position
      · subst here
        rw [List.getElem?_eq_getElem inside, Option.some.injEq] at atPosition
        simp only [atPosition, decide_true, reading, Literal.Holds, positive]
        exact ⟨atomValues, evaluated, inDelta⟩
      · simpa [here, reading] using literalHolds
  · -- Everything that the body reads was known.
    left
    refine ⟨assignment, values, fun literal inBody => ?_, headEq, rfl⟩
    have literalHolds := holds literal inBody
    cases literal with
    | unification lhs rhs negated => cases negated <;> exact literalHolds
    | predicate atom =>
        simp only [Literal.Holds] at literalHolds ⊢
        by_cases negated : atom.negated = true
        · simpa only [negated, if_true] using literalHolds
        · simp only [negated] at literalHolds ⊢
          obtain ⟨atomValues, evaluated, inWhole⟩ := literalHolds
          obtain ⟨position, atPosition⟩ := List.mem_iff_getElem?.mp inBody
          rcases split _ inWhole with old | ⟨inDelta, inStratum⟩
          · exact ⟨atomValues, evaluated, old⟩
          · exact absurd ⟨position, atom, atomValues, atPosition, by simpa using negated,
              evaluated, inDelta, inStratum⟩ recent

end DeltaRule

end Datalog
