import Datalog.DeltaRule

/-!
# Errors

Every failure is a value that names its cause; the wording is in the `message` functions alone.
-/

namespace Datalog

/-- The wording shared by every use of a relation with the wrong number of columns. -/
def arityMessage (relation : String) (expected found : Nat) : String :=
  s!"relation `{relation}` has arity {expected} but was used with {found} arguments"

/-- A program that cannot be assembled. -/
inductive ProgramError where
  | unknownRelation (name : String)
  | arityMismatch (relation : String) (expected found : Nat)
  | duplicateRelation (name : String) (first second : Nat)
  | nonGroundFact (fact : Atom)
  | emptyName
  deriving DecidableEq

namespace ProgramError

def message : ProgramError → String
  | .unknownRelation name => s!"unknown relation `{name}`"
  | .arityMismatch relation expected found => arityMessage relation expected found
  | .duplicateRelation name first second =>
      s!"relation `{name}` declared with arity {first} and again with arity {second}"
  | .nonGroundFact fact => "fact `" ++ fact.render ++ "` contains variables"
  | .emptyName => "invalid term: empty name"

end ProgramError

/-- Where a call is written: in a rule or in the query. -/
inductive CallSite where
  | inRule (rule : DeltaRule)
  | inQuery (query : Atom)
  deriving DecidableEq, Inhabited

def CallSite.render : CallSite → String
  | .inRule rule => rule.render
  | .inQuery query => query.render

/-- A program that cannot be evaluated as given. -/
inductive SetupError where
  | unsafeStratum (rank : Nat) (relations : List RelationSymbol)
  | noEvaluableOrdering (rule : DeltaRule)
  | unboundHeadVariables (names : List String) (rule : DeltaRule)
  | deltaPlacement (rule : DeltaRule)
  | unknownRelation (name : String)
  | arityMismatch (relation : String) (expected found : Nat)
  | unknownFunction (function : String) (site : CallSite)
  deriving DecidableEq

namespace SetupError

def message : SetupError → String
  | .unsafeStratum rank relations =>
      let names := Text.commaSeparated (relations.map (·.name))
      s!"cannot handle recursive negation in stratum {rank} ({names})"
  | .noEvaluableOrdering rule =>
      "no evaluable ordering for the literals of rule:\n" ++ rule.render
  | .unboundHeadVariables names rule =>
      let names := Text.commaSeparated names
      s!"there are unbound variables in the head of a rule ({names}):\n" ++ rule.render
  | .deltaPlacement rule =>
      "delta literal could not be placed first in rule:\n" ++ rule.render
  | .unknownRelation name => s!"relation `{name}` is not registered with the fact store"
  | .arityMismatch relation expected found => arityMessage relation expected found
  | .unknownFunction function site =>
      s!"unknown function `{function}` in rule:\n" ++ site.render

end SetupError

/-- A failure while terms are evaluated, facts are loaded or rules are run. -/
inductive EvalError where
  | function (name message : String)
  | solver (name message : String)
  | unknownFunction (name : String)
  | normalize (fact : Atom) (source : EvalError)
  | nonGround (term : String)
  | panicked (text : String)
  deriving DecidableEq, Inhabited

namespace EvalError

def message : EvalError → String
  | .function name text => s!"function `{name}` failed: {text}"
  | .solver name text => s!"solver call `{name}` failed: {text}"
  | .unknownFunction name => s!"unknown function `{name}`"
  | .normalize fact source => "cannot normalize fact " ++ fact.render ++ ": " ++ source.message
  | .nonGround term => s!"term `{term}` is not ground"
  | .panicked text => s!"task panicked: {text}"

end EvalError

/-- A defect of a plan that a task comes upon: a place that no run should reach. -/
inductive Defect where
  /-- A slot is read that the substitution does not have. -/
  | slotOutOfRange (length index : Nat)
  /-- A branch is entered that the form of the plan rules out. -/
  | unreachable (reason : String)
  deriving DecidableEq, Inhabited

def Defect.message : Defect → String
  | .slotOutOfRange length index =>
      s!"index out of bounds: the len is {length} but the index is {index}"
  | .unreachable reason => "internal error: entered unreachable code: " ++ reason

/-- How a task ends before its time: by an error, or by a defect of its plan. -/
inductive TaskError where
  | failed (error : EvalError)
  | defect (cause : Defect)
  deriving DecidableEq, Inhabited

/-- The failure that a task leaves behind.  A defect ends it like a panic. -/
def TaskError.toEvalError : TaskError → EvalError
  | .failed error => error
  | .defect cause => .panicked cause.message

/-- The failure of a whole evaluation, by the stage that failed. -/
inductive RunError where
  | setup (error : SetupError)
  | load (error : EvalError)
  | evaluation (error : EvalError)
  deriving DecidableEq

namespace RunError

def message : RunError → String
  | .setup error => "setup failed: " ++ error.message
  | .load error => "fact loading failed: " ++ error.message
  | .evaluation error => "evaluation failed: " ++ error.message

end RunError

end Datalog
