import Datalog.Term

/-!
# Rules

A relation is named together with its number of columns.  A rule derives its head atom whenever
every literal of its body holds.
-/

namespace Datalog

/-- A relation: its name and its number of columns. -/
structure RelationSymbol where
  name : String
  arity : Nat
  deriving DecidableEq, Inhabited

namespace RelationSymbol

/-- Relations are ordered by name and then by number of columns. -/
def le (left right : RelationSymbol) : Bool :=
  left.name < right.name || (left.name = right.name && left.arity ≤ right.arity)

/-- Relations in increasing order, each once. -/
def sortDistinct (symbols : List RelationSymbol) : List RelationSymbol :=
  symbols.eraseDups.mergeSort le

end RelationSymbol

/-- A relation applied to arguments, possibly negated. -/
structure Atom where
  symbol : RelationSymbol
  args : List Term
  negated : Bool := false
  deriving DecidableEq, Inhabited

namespace Atom

def render (atom : Atom) : String :=
  (if atom.negated then "!" else "") ++ atom.symbol.name
    ++ Text.parenthesized (Term.renderList atom.args)

def vars (atom : Atom) : List String :=
  Term.varsList atom.args

end Atom

/-- One conjunct of a rule body: a comparison of two terms or an atom. -/
inductive Literal where
  | unification (lhs rhs : Term) (negated : Bool)
  | predicate (atom : Atom)
  deriving DecidableEq, Inhabited

namespace Literal

/-- Whether a literal is a disequation or a negated atom. -/
def isNegated : Literal → Bool
  | .unification _ _ negated => negated
  | .predicate atom => atom.negated

/-- The terms of a literal, in the order in which they are written. -/
def terms : Literal → List Term
  | .unification lhs rhs _ => [lhs, rhs]
  | .predicate atom => atom.args

def vars (literal : Literal) : List String :=
  Term.varsList literal.terms

def atom? : Literal → Option Atom
  | .unification .. => none
  | .predicate atom => some atom

def render : Literal → String
  | .unification lhs rhs negated => lhs.render ++ (if negated then " != " else " = ") ++ rhs.render
  | .predicate atom => atom.render

end Literal

/-- The written form of a rule whose head and literals are already written: a rule without a body
is its head and a full stop, otherwise each literal has a line of its own. -/
def renderClause (head : String) : List String → String
  | [] => head ++ "."
  | body => head ++ " :-" ++ Text.join "," (body.map ("\n    " ++ ·)) ++ "."

/-- A rule: the head holds whenever every literal of the body does. -/
structure Rule where
  head : Atom
  body : List Literal
  deriving DecidableEq, Inhabited

namespace Rule

/-- Every occurrence of a variable in a rule, the head's first. -/
def occurrences (rule : Rule) : List String :=
  rule.head.vars ++ rule.body.flatMap Literal.vars

def render (rule : Rule) : String :=
  renderClause rule.head.render (rule.body.map Literal.render)

end Rule

end Datalog
