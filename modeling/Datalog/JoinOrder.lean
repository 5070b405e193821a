import Datalog.Config
import Datalog.Error

/-!
# Join order

A body is evaluated from left to right, so every literal must be evaluable once the literals
before it have given values to their variables.  `JoinOrder.arrange` chooses greedily: at each
position it takes the evaluable literal with the highest score, the earliest one on ties.
-/

namespace Datalog
namespace JoinOrder

/-- Whether every variable of a term has a value. -/
def isBound (bound : List String) (term : Term) : Bool :=
  term.vars.all bound.contains

/-- Whether a term can be matched against a value: every variable underneath a call has a value. -/
def isMatchable (bound : List String) (term : Term) : Bool :=
  term.callVars.all bound.contains

/-- Whether a term is a bare variable that occurs nowhere else in the rule whose occurrences are
counted by `count`. -/
def isSingleton (count : String → Nat) (term : Term) : Bool :=
  term.asVar.any fun name => count name = 1

/-- Whether a literal can be evaluated once some variables have values.  A negated atom needs
values for all its variables except singletons, a positive atom for the variables underneath
calls, a disequation for both sides, and an equation for one side entirely and the other side's
variables underneath calls. -/
def isEvaluable (count : String → Nat) (bound : List String) : Literal → Bool
  | .unification lhs rhs true => isBound bound lhs && isBound bound rhs
  | .unification lhs rhs false =>
      (isBound bound lhs && isMatchable bound rhs) || (isBound bound rhs && isMatchable bound lhs)
  | .predicate atom =>
      if atom.negated then
        atom.args.all fun arg => isBound bound arg || isSingleton count arg
      else
        atom.args.all (isMatchable bound)

/-- The score of literals that should run as soon as they can. -/
def topScore : Nat := 2147483647

/-- The percentage of an atom's arguments whose variables all have values, rounded down. -/
def percentBound (bound : List String) (atom : Atom) : Nat :=
  if atom.args.isEmpty then 0
  else (atom.args.filter (isBound bound)).length * 100 / atom.args.length

/-- The preference for placing a literal next, given the variables that have values. -/
def score (optimization : Optimization) (bound : List String) (literal : BodyLiteral) : Nat :=
  match literal.literal with
  | .unification .. => if optimization = .asWritten then 0 else topScore
  | .predicate atom =>
      match optimization with
      | .asWritten => 0
      | .boundRatio =>
          if atom.negated then topScore
          else if literal.delta then 100
          else if atom.args.isEmpty then 150
          else percentBound bound atom
      | .boundRatioPlain =>
          if atom.args.isEmpty then 150 else percentBound bound atom
      | .boundRatioDeltaFirst =>
          if atom.negated || atom.args.isEmpty then topScore
          else if literal.delta then 125
          else percentBound bound atom
      | .filtersFirst =>
          if atom.negated || literal.delta then topScore else 0

/-- The evaluable literal with the highest score, the earliest one on ties, and the other literals
in their order. -/
def pick? (optimization : Optimization) (count : String → Nat) (bound : List String) :
    List BodyLiteral → Option (BodyLiteral × List BodyLiteral)
  | [] => none
  | literal :: body =>
      match pick? optimization count bound body with
      | none =>
          if isEvaluable count bound literal.literal then some (literal, body) else none
      | some (best, others) =>
          if isEvaluable count bound literal.literal
              && score optimization bound best ≤ score optimization bound literal then
            some (literal, body)
          else
            some (best, literal :: others)

/-- Place as many literals as `places` says, each time the one that `pick?` chooses. -/
def arrangeFrom (optimization : Optimization) (count : String → Nat) :
    (places : Nat) → (bound : List String) → List BodyLiteral → Option (List BodyLiteral)
  | 0, _, _ => some []
  | places + 1, bound, body =>
      match pick? optimization count bound body with
      | none => none
      | some (literal, others) =>
          (arrangeFrom optimization count places (bound ++ literal.vars) others).map (literal :: ·)

/-- An evaluable order of a body, or nothing if some literal can never be evaluated. -/
def arrange (optimization : Optimization) (count : String → Nat) (body : List BodyLiteral) :
    Option (List BodyLiteral) :=
  arrangeFrom optimization count body.length [] body

end JoinOrder

namespace DeltaRule

/-- The variables of the head that occur nowhere in the body, in increasing order. -/
def unboundHeadVariables (rule : DeltaRule) : List String :=
  (rule.head.vars.eraseDups.filter
    fun name => !(rule.body.flatMap BodyLiteral.vars).contains name).mergeSort
      fun left right => !(right < left)

/-- A rule with its body in an evaluable order that gives every variable of the head a value. -/
def ordered (rule : DeltaRule) (optimization : Optimization) : Except SetupError DeltaRule :=
  match JoinOrder.arrange optimization rule.varCount rule.body with
  | none => .error (.noEvaluableOrdering rule)
  | some body =>
      match rule.unboundHeadVariables with
      | [] => .ok { rule with body }
      | names => .error (.unboundHeadVariables names rule)

/-- Refuse an ordered rule in which a delta atom comes after another atom. -/
def requireDeltaFirst (rule : DeltaRule) : Except SetupError Unit :=
  if rule.isDeltaFirst then .ok () else .error (.deltaPlacement rule)

end DeltaRule

end Datalog
