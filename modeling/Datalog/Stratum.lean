import Datalog.Digraph
import Datalog.Program

/-!
# Strata

The relations defined by rules are grouped so that mutually dependent ones are evaluated together,
and the groups are ordered so that a relation comes after everything its rules mention.  Relations
that hold base facts only belong to no stratum.
-/

namespace Datalog

/-- A group of relations that are evaluated together, at its place in the order of evaluation. -/
structure Stratum where
  rank : Nat
  /-- The relations in increasing order. -/
  symbols : List RelationSymbol
  /-- Whether some relation of the group depends negatively on a relation of the group. -/
  recursiveNegation : Bool
  deriving DecidableEq, Inhabited

namespace Stratum

/-- A stratum of the given relations, sorted. -/
def ofSymbols (rank : Nat) (symbols : List RelationSymbol) (recursiveNegation : Bool) :
    Stratum where
  rank := rank
  symbols := RelationSymbol.sortDistinct symbols
  recursiveNegation := recursiveNegation

def render (stratum : Stratum) : String :=
  "stratum " ++ toString stratum.rank ++ " \x7b"
    ++ Text.commaSeparated (stratum.symbols.map (·.name)) ++ "\x7d"

end Stratum

namespace Rule

def bodyAtoms (rule : Rule) : List Atom :=
  rule.body.filterMap Literal.atom?

end Rule

namespace Program

/-- The dependencies between the relations that rules define: an edge leads from the relation of
every body atom to the relation of the head. -/
def dependencies (program : Program) : Digraph RelationSymbol where
  nodes := program.ruleSymbols
  edges := program.rules.flatMap fun rule =>
    (rule.bodyAtoms.filter (program.ruleSymbols.contains ·.symbol)).map fun atom =>
      (atom.symbol, rule.head.symbol)

/-- Whether a rule for one of some relations negates one of them. -/
def negatesWithin (program : Program) (symbols : List RelationSymbol) : Bool :=
  program.rules.any fun rule =>
    symbols.contains rule.head.symbol
      && rule.bodyAtoms.any fun atom => atom.negated && symbols.contains atom.symbol

/-- The strata of a program in the order of evaluation. -/
def stratify (program : Program) : List Stratum :=
  program.dependencies.condensation.topologicalOrder.mapIdx fun rank symbols =>
    .ofSymbols rank symbols (program.negatesWithin symbols)

end Program

end Datalog
