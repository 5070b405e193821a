import Datalog.DeltaRule
import Datalog.Proofs.Semantics.Meaning
import Mathlib.Data.Set.Lattice

/-!
# Consequences

A model is a set of ground facts.  A rule derives the head of every instance whose literals hold: the
sides of an equation have the same value and those of a disequation different ones, a positive atom
is in the model, and no fact of the model matches a negated atom.  A variable that occurs once in a
rule is existential in its literal, so a negated atom is matched by a fact whatever such variables
stand for.  Naive evaluation adds all consequences of a model at once.
-/

namespace Datalog

/-- A relation and a value for each of its columns. -/
abbrev GroundFact := RelationSymbol × List Value

/-- A set of ground facts. -/
abbrev Model := Set GroundFact

/-- Two assignments agree on all variables but those that occur once. -/
def Assignment.AgreesUpTo (count : String → Nat) (first second : Assignment) : Prop :=
  ∀ name, count name ≠ 1 → first name = second name

/-- An atom's arguments have values that form a fact of a model. -/
def Atom.HoldsIn (meaning : Interpretation) (model : Model) (assignment : Assignment)
    (atom : Atom) : Prop :=
  ∃ values, Term.evalList meaning assignment atom.args = some values ∧
    (atom.symbol, values) ∈ model

/-- A literal holds when positive atoms are looked up in one model and negated ones in another. -/
def Literal.Holds (meaning : Interpretation) (positive negative : Model) (count : String → Nat)
    (assignment : Assignment) : Literal → Prop
  | .unification lhs rhs false =>
      ∃ value, lhs.eval meaning assignment = some value ∧ rhs.eval meaning assignment = some value
  | .unification lhs rhs true =>
      ∃ left right, lhs.eval meaning assignment = some left ∧
        rhs.eval meaning assignment = some right ∧ left ≠ right
  | .predicate atom =>
      if atom.negated then
        ¬ ∃ other, assignment.AgreesUpTo count other ∧ atom.HoldsIn meaning negative other
      else
        atom.HoldsIn meaning positive assignment

/-- A body literal holds when marked atoms are looked up in the second of two models. -/
def BodyLiteral.Holds (meaning : Interpretation) (positive : Bool → Model) (negative : Model)
    (count : String → Nat) (assignment : Assignment) (literal : BodyLiteral) : Prop :=
  literal.literal.Holds meaning (positive literal.delta) negative count assignment

namespace Rule

def varCount (rule : Rule) (name : String) : Nat :=
  rule.occurrences.count name

/-- The heads of the instances of a rule whose bodies hold. -/
def consequences (meaning : Interpretation) (positive negative : Model) (rule : Rule) : Model :=
  {fact | ∃ assignment values,
    (∀ literal ∈ rule.body, literal.Holds meaning positive negative rule.varCount assignment) ∧
      Term.evalList meaning assignment rule.head.args = some values ∧
        fact = (rule.head.symbol, values)}

end Rule

namespace DeltaRule

def consequences (meaning : Interpretation) (positive : Bool → Model) (negative : Model)
    (rule : DeltaRule) : Model :=
  {fact | ∃ assignment values,
    (∀ literal ∈ rule.body, literal.Holds meaning positive negative rule.varCount assignment) ∧
      Term.evalList meaning assignment rule.head.args = some values ∧
        fact = (rule.head.symbol, values)}

end DeltaRule

/-- All that some rules derive in one step. -/
def consequences (meaning : Interpretation) (rules : List Rule) (positive negative : Model) :
    Model :=
  {fact | ∃ rule ∈ rules, fact ∈ rule.consequences meaning positive negative}

/-- One step of naive evaluation: a model united with all its one-step consequences. -/
def naiveStep (meaning : Interpretation) (rules : List Rule) (model : Model) : Model :=
  model ∪ consequences meaning rules model model

/-- As many steps of naive evaluation as `rounds` says. -/
def naive (meaning : Interpretation) (rules : List Rule) (start : Model) : (rounds : Nat) → Model
  | 0 => start
  | rounds + 1 => naiveStep meaning rules (naive meaning rules start rounds)

variable {meaning : Interpretation} {count : String → Nat}

/-! ## What a literal depends on -/

theorem Atom.HoldsIn.mono {small large : Model} {assignment : Assignment} {atom : Atom}
    (included : ∀ values, (atom.symbol, values) ∈ small → (atom.symbol, values) ∈ large)
    (holds : atom.HoldsIn meaning small assignment) : atom.HoldsIn meaning large assignment := by
  obtain ⟨values, valuesEq, member⟩ := holds
  exact ⟨values, valuesEq, included values member⟩

theorem Atom.holdsIn_congr {model : Model} {first second : Assignment} {atom : Atom}
    (agree : ∀ name ∈ atom.vars, first name = second name) :
    atom.HoldsIn meaning model first ↔ atom.HoldsIn meaning model second := by
  unfold Atom.HoldsIn
  rw [Term.evalList_congr atom.args agree]

/-- The values that a literal's variables have decide whether the literal holds. -/
theorem Literal.holds_congr {positive negative : Model} {first second : Assignment}
    {literal : Literal} (agree : ∀ name ∈ literal.vars, first name = second name) :
    literal.Holds meaning positive negative count first ↔
      literal.Holds meaning positive negative count second := by
  have transfer : ∀ {first second : Assignment} {atom : Atom},
      (∀ name ∈ atom.vars, first name = second name) →
        (∃ other, first.AgreesUpTo count other ∧ atom.HoldsIn meaning negative other) →
          ∃ other, second.AgreesUpTo count other ∧ atom.HoldsIn meaning negative other := by
    rintro first second atom agree ⟨other, agreesUpTo, holds⟩
    -- Outside the atom the new assignment has to follow `second`.
    refine ⟨fun name => if name ∈ atom.vars then other name else second name, ?_, ?_⟩
    · intro name often
      by_cases occurs : name ∈ atom.vars
      · simp [occurs, ← agree name occurs, agreesUpTo name often]
      · simp [occurs]
    · refine (Atom.holdsIn_congr fun name occurs => ?_).mp holds
      simp [occurs]
  match literal, agree with
  | .unification lhs rhs negated, agree =>
      have lhsEq : lhs.eval meaning first = lhs.eval meaning second :=
        Term.eval_congr lhs fun name member =>
          agree name (by simp [Literal.vars, Literal.terms, Term.varsList, member])
      have rhsEq : rhs.eval meaning first = rhs.eval meaning second :=
        Term.eval_congr rhs fun name member =>
          agree name (by simp [Literal.vars, Literal.terms, Term.varsList, member])
      cases negated <;> simp only [Literal.Holds, lhsEq, rhsEq]
  | .predicate atom, agree =>
      simp only [Literal.Holds]
      split
      · exact not_congr
          ⟨transfer agree, transfer fun name member => (agree name member).symm⟩
      · exact Atom.holdsIn_congr agree

/-- A literal keeps holding when its relation grows, or, under a negation, shrinks. -/
theorem Literal.Holds.mono {positive negative positive' negative' : Model}
    {assignment : Assignment} {literal : Literal}
    (grows : ∀ atom, literal = .predicate atom → atom.negated = false →
      ∀ values, (atom.symbol, values) ∈ positive → (atom.symbol, values) ∈ positive')
    (shrinks : ∀ atom, literal = .predicate atom → atom.negated = true →
      ∀ values, (atom.symbol, values) ∈ negative' → (atom.symbol, values) ∈ negative)
    (holds : literal.Holds meaning positive negative count assignment) :
    literal.Holds meaning positive' negative' count assignment := by
  match literal, grows, shrinks, holds with
  | .unification lhs rhs true, _, _, holds => exact holds
  | .unification lhs rhs false, _, _, holds => exact holds
  | .predicate atom, grows, shrinks, holds =>
      simp only [Literal.Holds] at holds ⊢
      split
      · next negated =>
          rw [if_pos negated] at holds
          rintro ⟨other, agreesUpTo, matched⟩
          exact holds ⟨other, agreesUpTo, matched.mono (shrinks atom rfl negated)⟩
      · next positive =>
          rw [if_neg positive] at holds
          exact holds.mono (grows atom rfl (by simpa using positive))

theorem Rule.consequences_subset {positive negative positive' negative' : Model} {rule : Rule}
    (grows : ∀ atom, .predicate atom ∈ rule.body → atom.negated = false →
      ∀ values, (atom.symbol, values) ∈ positive → (atom.symbol, values) ∈ positive')
    (shrinks : ∀ atom, .predicate atom ∈ rule.body → atom.negated = true →
      ∀ values, (atom.symbol, values) ∈ negative' → (atom.symbol, values) ∈ negative) :
    rule.consequences meaning positive negative ⊆
      rule.consequences meaning positive' negative' := by
  rintro fact ⟨assignment, values, holds, headEq, factEq⟩
  refine ⟨assignment, values, fun literal member => ?_, headEq, factEq⟩
  refine (holds literal member).mono ?_ ?_
  · rintro atom rfl
    exact grows atom member
  · rintro atom rfl
    exact shrinks atom member

/-! ## Literals that hold loosely -/

/-- A literal holds once the variables that occur nowhere else are given suitable values. -/
def BodyLiteral.HoldsLoosely (meaning : Interpretation) (positive : Bool → Model)
    (negative : Model) (count : String → Nat) (assignment : Assignment)
    (literal : BodyLiteral) : Prop :=
  ∃ other, assignment.AgreesUpTo count other ∧
    literal.Holds meaning positive negative count other

theorem BodyLiteral.Holds.loosely {positive : Bool → Model} {negative : Model}
    {assignment : Assignment} {literal : BodyLiteral}
    (holds : literal.Holds meaning positive negative count assignment) :
    literal.HoldsLoosely meaning positive negative count assignment :=
  ⟨assignment, fun _ _ => rfl, holds⟩

/-- Literals that hold one by one for suitable values of the variables that occur once hold together
for suitable values. -/
theorem BodyLiteral.holds_of_holdsLoosely {positive : Bool → Model} {negative : Model}
    {assignment : Assignment} {body : List BodyLiteral}
    (counted : ∀ name, (body.flatMap BodyLiteral.vars).count name ≤ count name)
    (holds : ∀ literal ∈ body, literal.HoldsLoosely meaning positive negative count assignment) :
    ∃ other, assignment.AgreesUpTo count other ∧
      (∀ name, name ∉ body.flatMap BodyLiteral.vars → assignment name = other name) ∧
        ∀ literal ∈ body, literal.Holds meaning positive negative count other := by
  induction body with
  | nil => exact ⟨assignment, fun _ _ => rfl, fun _ _ => rfl, by simp⟩
  | cons literal body ih =>
      simp only [List.flatMap_cons, List.count_append, List.mem_append, not_or] at counted ⊢
      obtain ⟨late, lateAgrees, lateOutside, lateHolds⟩ :=
        ih (fun name => Nat.le_trans (Nat.le_add_left _ _) (counted name))
          fun literal member => holds literal (List.mem_cons_of_mem _ member)
      obtain ⟨first, firstAgrees, firstHolds⟩ := holds literal List.mem_cons_self
      refine ⟨fun name => if name ∈ literal.vars then first name else late name, ?_, ?_, ?_⟩
      · intro name often
        by_cases occurs : name ∈ literal.vars
        · simp [occurs, firstAgrees name often]
        · simp [occurs, lateAgrees name often]
      · rintro name ⟨notFirst, notLate⟩
        simp [notFirst, lateOutside name notLate]
      · intro other member
        rcases List.mem_cons.mp member with rfl | member
        · refine (Literal.holds_congr fun name occurs => ?_).mp firstHolds
          have occurs : name ∈ other.vars := occurs
          simp [occurs]
        · refine (Literal.holds_congr fun name occurs => ?_).mp (lateHolds other member)
          by_cases twice : name ∈ literal.vars
          · have inFirst := List.count_pos_iff.mpr twice
            have inLate : 0 < (body.flatMap BodyLiteral.vars).count name :=
              List.count_pos_iff.mpr (List.mem_flatMap.mpr ⟨other, member, occurs⟩)
            have often : count name ≠ 1 := by
              have := counted name
              omega
            simp [twice, ← firstAgrees name often, ← lateAgrees name often]
          · simp [twice]

/-- A rule derives the heads of the instances whose literals hold loosely. -/
theorem DeltaRule.mem_consequences_of_holdsLoosely {positive : Bool → Model} {negative : Model}
    {rule : DeltaRule} {assignment : Assignment} {values : List Value}
    (holds : ∀ literal ∈ rule.body,
      literal.HoldsLoosely meaning positive negative rule.varCount assignment)
    (headEq : Term.evalList meaning assignment rule.head.args = some values) :
    (rule.head.symbol, values) ∈ rule.consequences meaning positive negative := by
  have counted : ∀ name, (rule.body.flatMap BodyLiteral.vars).count name ≤ rule.varCount name := by
    intro name
    simp [varCount, occurrences, List.count_append]
  obtain ⟨other, agrees, outside, otherHolds⟩ :=
    BodyLiteral.holds_of_holdsLoosely counted holds
  refine ⟨other, values, otherHolds, ?_, rfl⟩
  rw [← headEq]
  refine Term.evalList_congr _ fun name inHead => ?_
  by_cases often : rule.varCount name = 1
  · refine (outside name fun inBody => ?_).symm
    have headCount : 0 < rule.head.vars.count name := List.count_pos_iff.mpr inHead
    have bodyCount := List.count_pos_iff.mpr inBody
    simp only [varCount, occurrences, List.count_append] at often
    omega
  · exact (agrees name often).symm

end Datalog
