import Datalog.Proofs.Program
import Datalog.Proofs.Semantics.Isolation
import Datalog.Stratum

/-!
# What the rewriting of rules preserves

Before a rule is evaluated within a stratum it is split into variants, and for an eager evaluation the
calls of its delta atom are isolated.  The variants cover exactly the instances that read a new fact.
Isolating calls keeps what a rule derives, also where a call without a value makes an instance fail,
as long as the rule does not use the names that are introduced; a rule that uses one of them captures
the variable.
-/

namespace Datalog

namespace Sample

/-- Every edge is a path. -/
def copying : Rule where
  head := atom path [.var "X", .var "Y"]
  body := [.predicate (atom edge [.var "X", .var "Y"])]

/-- Two paths make a path. -/
def doubling : Rule where
  head := atom path [.var "X", .var "Z"]
  body := [.predicate (atom path [.var "X", .var "Y"]), .predicate (atom path [.var "Y", .var "Z"])]

/-- What a node leads to, named by a variable, if there is a path to its wrapped form. -/
def leading (name : String) : Rule where
  head := atom path [.var "X", .var name]
  body := [.predicate (atom edge [.var "X", .var name]),
    .predicate (atom path [.var "X", .call "wrap" [.var "X"]])]

end Sample

variable {meaning : Interpretation}

/-- All terms of a literal have values. -/
def BodyLiteral.Defined (meaning : Interpretation) (assignment : Assignment)
    (literal : BodyLiteral) : Prop :=
  ∃ values, Term.evalList meaning assignment literal.literal.terms = some values

theorem BodyLiteral.defined_congr {first second : Assignment} {literal : BodyLiteral}
    (agree : ∀ name ∈ literal.vars, first name = second name) :
    literal.Defined meaning first ↔ literal.Defined meaning second := by
  unfold Defined
  rw [Term.evalList_congr literal.literal.terms agree]

/-- A literal that holds is defined; only for negated atoms this has to be known. -/
theorem BodyLiteral.Holds.defined {positive : Bool → Model} {negative : Model}
    {count : String → Nat} {assignment : Assignment} {literal : BodyLiteral}
    (ifNegated : ∀ atom, literal.literal = .predicate atom → atom.negated = true →
      literal.Defined meaning assignment)
    (holds : literal.Holds meaning positive negative count assignment) :
    literal.Defined meaning assignment := by
  obtain ⟨literal, delta⟩ := literal
  match literal, ifNegated, holds with
  | .unification lhs rhs false, _, ⟨value, lhsEq, rhsEq⟩ =>
      exact ⟨[value, value], by simp [Literal.terms, Term.evalList, lhsEq, rhsEq]⟩
  | .unification lhs rhs true, _, ⟨left, right, lhsEq, rhsEq, _⟩ =>
      exact ⟨[left, right], by simp [Literal.terms, Term.evalList, lhsEq, rhsEq]⟩
  | .predicate atom, ifNegated, holds =>
      cases negated : atom.negated with
      | true => exact ifNegated atom rfl negated
      | false =>
          simp only [BodyLiteral.Holds, Literal.Holds, negated] at holds
          obtain ⟨values, evaluated, -⟩ := holds
          exact ⟨values, evaluated⟩

namespace DeltaRule

/-! ## Variants -/

/-- If no positive atom reads the stratum, the rule derives the same without the stratum's facts. -/
theorem consequences_diff_of_unmarked {rule : Rule} {stratum : List RelationSymbol}
    {db delta : Model} (inStratum : ∀ fact ∈ delta, fact.1 ∈ stratum)
    (unmarked : ∃ variant ∈ variants rule stratum, variant.deltaPosition? = none)
    (negatesOutside : ∀ atom, .predicate atom ∈ rule.body → atom.negated = true →
      atom.symbol ∉ stratum) :
    rule.consequences meaning db db = rule.consequences meaning (db \ delta) (db \ delta) := by
  have readsOutside : ∀ atom, .predicate atom ∈ rule.body → atom.symbol ∉ stratum := by
    intro atom inBody
    cases negated : atom.negated with
    | true => exact negatesOutside atom inBody negated
    | false =>
        obtain ⟨variant, member, noDelta⟩ := unmarked
        rcases isDelta_or_of_mem_variants member with marked | outside
        · simp [noDelta] at marked
        · exact outside atom inBody negated
  have kept : ∀ atom, .predicate atom ∈ rule.body → ∀ values,
      (atom.symbol, values) ∈ db → (atom.symbol, values) ∈ db \ delta :=
    fun atom inBody values known =>
      ⟨known, fun recent => readsOutside atom inBody (inStratum _ recent)⟩
  apply Set.Subset.antisymm
  · exact Rule.consequences_subset (fun atom inBody _ => kept atom inBody)
      fun _ _ _ _ known => known.1
  · exact Rule.consequences_subset (fun _ _ _ _ known => known.1)
      fun atom inBody _ => kept atom inBody

/-- The instances of a rule are those that read no new fact and those of its marked variants, and a
rule without marked variants reads no new fact at all. -/
theorem consequences_eq_union_variants {rule : Rule} {stratum : Stratum} {db delta : Model}
    (included : delta ⊆ db) (inStratum : ∀ fact ∈ delta, fact.1 ∈ stratum.symbols) :
    rule.consequences meaning db db =
        rule.consequences meaning (db \ delta) db ∪
          {fact | ∃ variant ∈ variants rule stratum.symbols,
            variant.deltaPosition?.isSome = true ∧
              fact ∈ variant.consequences meaning (reading db delta) db} ∧
      ((∃ variant ∈ variants rule stratum.symbols, variant.deltaPosition? = none) →
        (∀ atom, .predicate atom ∈ rule.body → atom.negated = true →
          atom.symbol ∉ stratum.symbols) →
        rule.consequences meaning db db =
          rule.consequences meaning (db \ delta) (db \ delta)) := by
  refine ⟨Set.Subset.antisymm ?_ (Set.union_subset ?_ ?_),
    consequences_diff_of_unmarked inStratum⟩
  · refine consequences_subset_union fun fact known => ?_
    by_cases recent : fact ∈ delta
    · exact .inr ⟨recent, inStratum fact recent⟩
    · exact .inl ⟨known, recent⟩
  · exact Rule.consequences_subset (fun _ _ _ _ known => known.1) fun _ _ _ _ known => known
  · rintro fact ⟨variant, member, -, derived⟩
    rw [← toRule_of_mem_variants member]
    exact consequences_subset_toRule (fun _ _ _ recent => included recent) derived

/-- Two paths, of which the second is new: one rule joins them, the other one reads edges only. -/
theorem consequences_eq_union_variants_sample :
    let db : Model := {(Sample.path, [.int 1, .int 2]), (Sample.path, [.int 2, .int 3])}
    let delta : Model := {(Sample.path, [.int 2, .int 3])}
    let stratum : Stratum := { rank := 0, symbols := [Sample.path], recursiveNegation := false }
    (delta ⊆ db ∧ ∀ fact ∈ delta, fact.1 ∈ stratum.symbols) ∧
      Sample.doubling.consequences Sample.meaning db db =
        Sample.doubling.consequences Sample.meaning (db \ delta) db ∪
          {fact | ∃ variant ∈ variants Sample.doubling stratum.symbols,
            variant.deltaPosition?.isSome = true ∧
              fact ∈ variant.consequences Sample.meaning (reading db delta) db} ∧
      Sample.copying.consequences Sample.meaning db db =
        Sample.copying.consequences Sample.meaning (db \ delta) (db \ delta) := by
  intro db delta stratum
  have included : delta ⊆ db := Set.subset_insert _ _
  have inStratum : ∀ fact ∈ delta, fact.1 ∈ stratum.symbols := by
    rintro fact rfl
    decide
  refine ⟨⟨included, inStratum⟩, (consequences_eq_union_variants included inStratum).1,
    (consequences_eq_union_variants included inStratum).2 ⟨ofRule Sample.copying, ?_, rfl⟩ ?_⟩
  · decide
  · rintro atom inBody negated
    obtain rfl : atom = Sample.atom Sample.edge [.var "X", .var "Y"] := by
      simpa [Sample.copying] using inBody
    cases negated

/-! ## Isolated calls -/

/-- The heads of the instances in which all terms have values and all literals hold.  A call without a
value makes an instance fail, also in a negated atom. -/
def derivable (meaning : Interpretation) (positive : Bool → Model) (negative : Model)
    (rule : DeltaRule) : Model :=
  {fact | ∃ assignment values,
    (∀ literal ∈ rule.body, literal.Defined meaning assignment ∧
      literal.Holds meaning positive negative rule.varCount assignment) ∧
      Term.evalList meaning assignment rule.head.args = some values ∧
        fact = (rule.head.symbol, values)}

/-- Negated atoms are neither changed nor introduced. -/
theorem mem_isolateBody_of_negated {literal : BodyLiteral} {atom : Atom} {body : List BodyLiteral}
    (marksPositive : MarksPositive body) (isAtom : literal.literal = .predicate atom)
    (negated : atom.negated = true) (next : Nat) :
    literal ∈ isolateBody next body ↔ literal ∈ body := by
  induction body generalizing next with
  | nil => simp [isolateBody]
  | cons first body ih =>
      have others := ih (marksPositive_cons marksPositive)
      by_cases marked : ∃ atom, first = { literal := .predicate atom, delta := true }
      · obtain ⟨delta, rfl⟩ := marked
        have deltaPositive := marksPositive delta List.mem_cons_self
        -- The new literals are equations and a positive atom.
        have noEquation : literal ∉ (isolateArgs next delta.args).2.1 := by
          intro member
          obtain ⟨index, arg, rfl⟩ := eq_isolatedEquation_of_mem member
          cases isAtom
        have notMarked : ∀ args, literal ≠
            { literal := .predicate { delta with args }, delta := true } := by
          rintro args rfl
          cases isAtom
          simp [deltaPositive] at negated
        rw [isolateBody_cons_marked]
        simp only [List.mem_append, List.mem_cons, noEquation, notMarked, false_or, others]
      · rw [isolateBody_cons_other next body fun atom same => marked ⟨atom, same⟩]
        simp only [List.mem_cons, others]

/-- Isolating calls keeps what a rule derives if the introduced names do not occur in it. -/
theorem derivable_isolateCalls {rule : DeltaRule} {positive : Bool → Model} {negative : Model}
    (marksPositive : MarksPositive rule.body)
    (avoids : ∀ index < isolatedCount rule.body, isolatedName index ∉ rule.occurrences) :
    rule.isolateCalls.derivable meaning positive negative =
      rule.derivable meaning positive negative := by
  apply Set.Subset.antisymm
  · rintro fact ⟨assignment, values, holds, headEq, factEq⟩
    have oldHolds := holds_of_isolateCalls marksPositive avoids fun literal member =>
      (holds literal member).2
    refine ⟨assignment, values, fun literal member => ⟨?_, oldHolds literal member⟩, headEq, factEq⟩
    refine (oldHolds literal member).defined fun atom isAtom negated => ?_
    exact (holds literal
      ((mem_isolateBody_of_negated marksPositive isAtom negated 0).mpr member)).1
  · rintro fact ⟨assignment, values, holds, headEq, factEq⟩
    obtain ⟨other, agrees, otherHolds⟩ := exists_holds_isolateCalls marksPositive avoids
      fun literal member => (holds literal member).2
    refine ⟨other, values, fun literal member => ⟨?_, otherHolds literal member⟩, ?_, factEq⟩
    · refine (otherHolds literal member).defined fun atom isAtom negated => ?_
      have inBody := (mem_isolateBody_of_negated marksPositive isAtom negated 0).mp member
      refine (BodyLiteral.defined_congr fun name occurs => ?_).mpr (holds literal inBody).1
      exact agrees name (List.mem_append_right _ (List.mem_flatMap.mpr ⟨_, inBody, occurs⟩))
    · rw [← headEq]
      exact Term.evalList_congr _ fun name occurs => agrees name (List.mem_append_left _ occurs)

/-- The rule of the sample that introduces one name and does not use it. -/
theorem derivable_isolateCalls_sample :
    let rule := markedAt (Sample.leading "Y") 1
    let db : Model := {(Sample.edge, [.int 1, .int 5]),
      (Sample.path, [.int 1, .ctor "wrap" [.int 1]])}
    (MarksPositive rule.body ∧
        ∀ index < isolatedCount rule.body, isolatedName index ∉ rule.occurrences) ∧
      rule.isolateCalls.derivable Sample.meaning (reading db db) db =
        rule.derivable Sample.meaning (reading db db) db := by
  intro rule db
  have marksPositive : MarksPositive rule.body := by
    rintro atom inBody
    obtain rfl : atom = Sample.atom Sample.path [.var "X", .call "wrap" [.var "X"]] := by
      simpa [rule, markedAt, Sample.leading] using inBody
    rfl
  have avoids : ∀ index < isolatedCount rule.body, isolatedName index ∉ rule.occurrences := by
    decide
  exact ⟨⟨marksPositive, avoids⟩, derivable_isolateCalls marksPositive avoids⟩

/-- A rule that is accepted and uses the name of an isolated call derives less once the call is
isolated, because its own variable is captured. -/
theorem derivable_isolateCalls_captured :
    let rule := markedAt (Sample.leading (isolatedName 0)) 1
    let db : Model := {(Sample.edge, [.int 1, .int 5]),
      (Sample.path, [.int 1, .ctor "wrap" [.int 1]])}
    (∃ later, Sample.program.addRule (Sample.leading (isolatedName 0)) = .ok later) ∧
      rule ∈ variants (Sample.leading (isolatedName 0)) [Sample.path] ∧
        rule.isolateCalls.derivable Sample.meaning (reading db db) db ≠
          rule.derivable Sample.meaning (reading db db) db := by
  intro rule db
  refine ⟨⟨_, rfl⟩, by decide, fun same => ?_⟩
  have derived : (Sample.path, [.int 1, .int 5]) ∈
      rule.derivable Sample.meaning (reading db db) db := by
    refine ⟨fun name => if name = "X" then .int 1 else .int 5, _, ?_, rfl, rfl⟩
    have bodyEq : rule.body =
        [{ literal := .predicate (Sample.atom Sample.edge [.var "X", .var (isolatedName 0)]) },
          { literal := .predicate (Sample.atom Sample.path [.var "X", .call "wrap" [.var "X"]]),
            delta := true }] := rfl
    rw [bodyEq, List.forall_mem_cons, List.forall_mem_singleton]
    exact ⟨⟨⟨_, rfl⟩, _, rfl, .inl rfl⟩, ⟨_, rfl⟩, _, rfl, .inr rfl⟩
  rw [← same] at derived
  obtain ⟨assignment, values, holds, headEq, factEq⟩ := derived
  -- The equation gives the captured variable a constructor, the head needs a number.
  have equation := (holds (isolatedEquation 0 (.call "wrap" [.var "X"])) (by decide)).2
  rw [holds_isolatedEquation] at equation
  have captured : Value.ctor "wrap" [assignment "X"] = assignment (isolatedName 0) :=
    Option.some.inj equation
  have headValues : values = [assignment "X", assignment (isolatedName 0)] :=
    (Option.some.inj headEq).symm
  simp [headValues, ← captured] at factEq

end DeltaRule

end Datalog
