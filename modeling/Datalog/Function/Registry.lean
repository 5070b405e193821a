import Datalog.Error
import Datalog.TermStore

/-!
# Functions

A call in a rule or a fact is evaluated by a registered function once its arguments have values.  A
function may look terms up and intern new ones, and it may fail.  A constraint solver is registered
through the two questions that can be put to it.
-/

namespace Datalog

/-- A computation that interns terms and may fail; the terms interned before a failure stay. -/
abbrev TermM := EStateM EvalError TermStore

def internTerm (term : GroundTerm) : TermM TermId :=
  modifyGet fun store => store.intern term

/-- How a function fails: with a message, or by a panic that may carry a text. -/
inductive Fault where
  | message (text : String)
  | panic (payload : Option String)
  deriving DecidableEq, Inhabited

namespace Fault

/-- The error that a fault becomes; `describe` is applied to messages. -/
def toError (describe : String → EvalError) : Fault → EvalError
  | .message text => describe text
  | .panic payload => .panicked (payload.getD "unknown panic payload")

end Fault

/-- A function on interned terms.  It may add terms to the store but keeps those that are there. -/
structure Function where
  apply : TermStore → List TermId → Except Fault TermId × TermStore
  extends_apply : ∀ store args, (apply store args).2.Extends store

/-- The answer of a satisfiability check. -/
inductive SolverAnswer where
  | sat
  | unsat
  | unknown
  deriving DecidableEq, Inhabited

/-- A constraint solver.  It may add terms to the store but keeps those that are there. -/
structure Solver where
  check : TermStore → TermId → Except Fault SolverAnswer × TermStore
  extends_check : ∀ store assertion, (check store assertion).2.Extends store

/-- What a name is registered for. -/
inductive Registered where
  | native (function : Function)
  /-- Whether the argument is satisfiable or, if `negate` is set, whether it is valid. -/
  | solverCheck (solver : Solver) (negate : Bool)

/-- The functions of an evaluation by name. -/
structure Registry where
  entries : List (String × Registered) := []

namespace Registry

/-- Register a function, in place of an earlier one of the same name. -/
def register (registry : Registry) (name : String) (registered : Registered) : Registry where
  entries := (registry.entries.filter (·.1 ≠ name)) ++ [(name, registered)]

def find? (registry : Registry) (name : String) : Option Registered :=
  (registry.entries.find? (·.1 = name)).map (·.2)

def contains (registry : Registry) (name : String) : Bool :=
  (registry.find? name).isSome

/-- Register a solver under `is_sat` and `is_valid`. -/
def withSolver (registry : Registry) (solver : Solver) : Registry :=
  (registry.register "is_sat" (.solverCheck solver false)).register
    "is_valid" (.solverCheck solver true)

/-- The result of a computation that may fail, as a step of `TermM`. -/
def settle {α : Type} (describe : String → EvalError) : Except Fault α × TermStore →
    EStateM.Result EvalError TermStore α
  | (.ok value, store) => .ok value store
  | (.error fault, store) => .error (fault.toError describe) store

/-- Put a question to a solver.  A formula is valid if its negation cannot be satisfied. -/
def askSolver (name : String) (solver : Solver) (negate : Bool) (args : List TermId) :
    TermM TermId := do
  match args with
  | [formula] =>
      let assertion ← if negate then internTerm (.ctor "not" [formula]) else pure formula
      let answer ← fun store => settle (.solver name) (solver.check store assertion)
      match answer with
      | .sat => internTerm (.bool !negate)
      | .unsat => internTerm (.bool negate)
      | .unknown => throw (.solver name "solver returned unknown")
  | _ => throw (.solver name s!"expected 1 argument, got {args.length}")

/-- Apply the function of a name to interned arguments. -/
def call (registry : Registry) (name : String) (args : List TermId) : TermM TermId :=
  match registry.find? name with
  | none => throw (.unknownFunction name)
  | some (.native function) => fun store => settle (.function name) (function.apply store args)
  | some (.solverCheck solver negate) => askSolver name solver negate args

/-- The registered names in increasing order, as they are shown. -/
def render (registry : Registry) : String :=
  let names := (registry.entries.map (·.1)).mergeSort fun left right => !(right < left)
  "FunctionRegistry \x7b functions: [" ++ Text.commaSeparated (names.map Text.quote) ++ "] \x7d"

end Registry

end Datalog
