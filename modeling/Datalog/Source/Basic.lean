import Datalog.Source.FactTable

/-!
# Program descriptions

A program can be described by data that name its relations and spell out its terms.  The description
is not checked: relations may be undeclared, and a bare name has not been told apart as a variable
or a constant yet.
-/

namespace Datalog
namespace Source

/-- A term as it is described. -/
inductive TermSource where
  | bool (value : Bool)
  | int (value : Int64)
  /-- A variable or a constructor without arguments, depending on the first letter. -/
  | name (name : String)
  | str (value : String)
  | ctor (name : String) (args : List TermSource)
  | call (function : String) (args : List TermSource)
  deriving Inhabited

/-- A relation and its number of columns. -/
structure RelationDecl where
  name : String
  arity : UInt64
  deriving DecidableEq, Inhabited

/-- A relation applied to terms, possibly negated. -/
structure AtomSource where
  rel : String
  args : List TermSource := []
  negated : Bool := false
  deriving Inhabited

/-- A conjunct of a rule body. -/
inductive LiteralSource where
  | eq (lhs rhs : TermSource)
  | neq (lhs rhs : TermSource)
  | atom (atom : AtomSource)
  deriving Inhabited

/-- A head and the conjuncts of the body. -/
structure RuleSource where
  head : AtomSource
  body : List LiteralSource := []
  deriving Inhabited

/-- The description of a whole program; base facts are listed by the name of their relation. -/
structure ProgramSource where
  relations : List RelationDecl
  facts : FactTable (List (List TermSource)) := {}
  rules : List RuleSource := []
  query : Option AtomSource := none

end Source
end Datalog
