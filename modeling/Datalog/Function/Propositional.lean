import Datalog.Function.Registry

/-!
# A solver for truth values

The formulas that this solver decides are the two truth values, their negations, and the constant
`unknown`, which stands for a formula it gives up on.
-/

namespace Datalog

namespace SolverAnswer

/-- The answer for the negation of a formula that is a truth value. -/
def negate : SolverAnswer → SolverAnswer
  | .sat => .unsat
  | .unsat => .sat
  | .unknown => .unknown

end SolverAnswer

namespace Propositional

/-- Decide a formula that nests at most as many negations as given. -/
def decideTo (store : TermStore) : (depth : Nat) → TermId → Except Fault SolverAnswer
  | 0, formula => .error (.message ("cannot decide " ++ store.render formula))
  | depth + 1, formula =>
      match store.resolve formula with
      | some (.bool true) => .ok .sat
      | some (.bool false) => .ok .unsat
      | some (.ctor "not" [inner]) => (decideTo store depth inner).map SolverAnswer.negate
      | some (.ctor "unknown" []) => .ok .unknown
      | _ => .error (.message ("cannot decide " ++ store.render formula))

/-- The solver for truth values. -/
def solver : Solver where
  check store assertion := (decideTo store (store.size + 1) assertion, store)
  extends_check store _ := .refl store

end Propositional

end Datalog
