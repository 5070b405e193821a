import Datalog.Function.Registry
import Datalog.Proofs.Semantics.Value

/-!
# The meaning of terms and functions

A call means what its function makes of the values of its arguments, if anything.  A registry computes
such an interpretation if every function in it returns, for arguments that denote some values, a
number that denotes the value the interpretation gives to those values: its results depend on the
structure of its arguments alone.
-/

namespace Datalog

/-- What the functions of each name make of values.  A function may be undefined for some of them. -/
abbrev Interpretation := String → List Value → Option Value

/-- A value for each variable. -/
abbrev Assignment := String → Value

namespace Term

mutual

/-- The value of a term under an assignment. -/
def eval (meaning : Interpretation) (assignment : Assignment) : Term → Option Value
  | .var name => some (assignment name)
  | .bool value => some (.bool value)
  | .int value => some (.int value)
  | .str value => some (.str value)
  | .ctor name args => (evalList meaning assignment args).map (.ctor name)
  | .call function args => (evalList meaning assignment args).bind (meaning function)

/-- The values of several terms, if all of them have one. -/
def evalList (meaning : Interpretation) (assignment : Assignment) : List Term → Option (List Value)
  | [] => some []
  | term :: terms =>
      match eval meaning assignment term, evalList meaning assignment terms with
      | some value, some values => some (value :: values)
      | _, _ => none

end

variable {meaning : Interpretation}

theorem evalList_cons_eq_some {assignment : Assignment} {term : Term} {terms : List Term}
    {values : List Value} :
    evalList meaning assignment (term :: terms) = some values ↔
      ∃ value rest, eval meaning assignment term = some value ∧
        evalList meaning assignment terms = some rest ∧ values = value :: rest := by
  cases first : eval meaning assignment term <;>
    cases others : evalList meaning assignment terms <;>
      simp [evalList, first, others, eq_comm]

theorem evalList_length {assignment : Assignment} {terms : List Term} {values : List Value}
    (evaluated : evalList meaning assignment terms = some values) :
    values.length = terms.length := by
  induction terms generalizing values with
  | nil =>
      simp only [evalList, Option.some.injEq] at evaluated
      simp [← evaluated]
  | cons term terms ih =>
      obtain ⟨value, rest, _, restEq, rfl⟩ := evalList_cons_eq_some.mp evaluated
      simp [ih restEq]

mutual

/-- The value of a term depends on the variables that occur in it. -/
theorem eval_congr {first second : Assignment} :
    (term : Term) → (∀ name ∈ term.vars, first name = second name) →
      eval meaning first term = eval meaning second term
  | .var name, agree => by
      simp [eval, agree name (by simp [vars])]
  | .bool _, _ | .int _, _ | .str _, _ => by simp [eval]
  | .ctor name args, agree => by
      simp only [eval]
      rw [evalList_congr args fun name member => agree name (by simpa [vars] using member)]
  | .call function args, agree => by
      simp only [eval]
      rw [evalList_congr args fun name member => agree name (by simpa [vars] using member)]

theorem evalList_congr {first second : Assignment} :
    (terms : List Term) → (∀ name ∈ varsList terms, first name = second name) →
      evalList meaning first terms = evalList meaning second terms
  | [], _ => rfl
  | term :: terms, agree => by
      simp only [evalList]
      rw [eval_congr term fun name member => agree name (by simp [varsList, member]),
        evalList_congr terms fun name member => agree name (by simp [varsList, member])]

end

end Term

namespace Value

variable {meaning : Interpretation}

mutual

theorem vars_toTerm : (value : Value) → value.toTerm.vars = []
  | .bool _ | .int _ | .str _ => rfl
  | .ctor _ args => by simp [toTerm, Term.vars, varsList_toTermList args]

theorem varsList_toTermList : (values : List Value) → Term.varsList (toTermList values) = []
  | [] => rfl
  | value :: values => by
      simp [toTermList, Term.varsList, vars_toTerm value, varsList_toTermList values]

end

mutual

theorem eval_toTerm (assignment : Assignment) :
    (value : Value) → value.toTerm.eval meaning assignment = some value
  | .bool _ | .int _ | .str _ => rfl
  | .ctor _ args => by simp [toTerm, Term.eval, evalList_toTermList assignment args]

theorem evalList_toTermList (assignment : Assignment) :
    (values : List Value) →
      Term.evalList meaning assignment (toTermList values) = some values
  | [] => rfl
  | value :: values => by
      simp [toTermList, Term.evalList, eval_toTerm assignment value,
        evalList_toTermList assignment values]

end

end Value

/-! ## Functions -/

/-- A function returns numbers that denote what an interpretation makes of its arguments' values. -/
def Function.Computes (function : Function) (meaning : List Value → Option Value) : Prop :=
  ∀ (store : TermStore) (args : List TermId) (values : List Value),
    store.Distinct → store.DenotesAll args values →
      (function.apply store args).2.Distinct ∧
        ∀ id, (function.apply store args).1 = .ok id → (function.apply store args).2.HasRoom →
          ∃ value, meaning values = some value ∧ (function.apply store args).2.Denotes id value

/-- A solver gives the answers that a verdict on values prescribes. -/
def Solver.Decides (solver : Solver) (verdict : Value → Option SolverAnswer) : Prop :=
  ∀ (store : TermStore) (assertion : TermId) (value : Value),
    store.Distinct → store.Denotes assertion value →
      (solver.check store assertion).2.Distinct ∧
        ∀ answer, (solver.check store assertion).1 = .ok answer →
          (solver.check store assertion).2.HasRoom → verdict value = some answer

namespace SolverAnswer

/-- The truth value that an answer stands for: satisfiable or, if `negate` is set, valid. -/
def truth (negate : Bool) : SolverAnswer → Option Value
  | .sat => some (.bool !negate)
  | .unsat => some (.bool negate)
  | .unknown => none

end SolverAnswer

/-- The formula that is put to a solver: its argument or, for validity, the negation. -/
def Value.question (negate : Bool) (formula : Value) : Value :=
  if negate then .ctor "not" [formula] else formula

/-- What is registered under a name computes an interpretation. -/
def Registered.Computes (registered : Registered) (meaning : List Value → Option Value) : Prop :=
  match registered with
  | .native function => function.Computes meaning
  | .solverCheck solver negate =>
      ∃ verdict, solver.Decides verdict ∧
        ∀ formula, meaning [formula] = (verdict (formula.question negate)).bind (·.truth negate)

/-- Every function of a registry computes what an interpretation gives for its name. -/
def Registry.Computes (functions : Registry) (meaning : Interpretation) : Prop :=
  ∀ name registered, functions.find? name = some registered → registered.Computes (meaning name)

theorem Registry.computes_empty (meaning : Interpretation) : Registry.Computes {} meaning := by
  intro name registered found
  cases found

end Datalog
