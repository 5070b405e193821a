import Datalog.Json.Basic
import Datalog.Source.Basic

/-!
# Program descriptions as JSON

How a description is written.  All four parts of a program and the arguments of every atom,
constructor and call are written even when they are empty; the negation mark only when it is set.
-/

namespace Datalog
namespace Source

mutual

/-- A described term as JSON. -/
def TermSource.toJson : TermSource → Json
  | .bool value => .bool value
  | .int value => .int value.toInt
  | .name bare => .str bare
  | .str value => .obj [("str", .str value)]
  | .ctor constructor args =>
      .obj [("ctor", .str constructor), ("args", .arr (TermSource.listToJson args))]
  | .call function args =>
      .obj [("call", .str function), ("args", .arr (TermSource.listToJson args))]

def TermSource.listToJson : List TermSource → List Json
  | [] => []
  | term :: terms => term.toJson :: TermSource.listToJson terms

end

def RelationDecl.toJson (relation : RelationDecl) : Json :=
  .obj [("name", .str relation.name), ("arity", .int relation.arity.toNat)]

def AtomSource.toJson (atom : AtomSource) : Json :=
  .obj ([("rel", .str atom.rel), ("args", .arr (TermSource.listToJson atom.args))]
    ++ if atom.negated then [("negated", .bool true)] else [])

def LiteralSource.toJson : LiteralSource → Json
  | .eq lhs rhs => .obj [("eq", .arr [lhs.toJson, rhs.toJson])]
  | .neq lhs rhs => .obj [("neq", .arr [lhs.toJson, rhs.toJson])]
  | .atom literal => literal.toJson

def RuleSource.toJson (rule : RuleSource) : Json :=
  .obj [("head", rule.head.toJson), ("body", .arr (rule.body.map LiteralSource.toJson))]

def factsToJson (facts : List (List TermSource)) : Json :=
  .arr (facts.map fun args => .arr (TermSource.listToJson args))

def ProgramSource.toJson (program : ProgramSource) : Json :=
  .obj
    [ ("relations", .arr (program.relations.map RelationDecl.toJson)),
      ("facts", .obj (program.facts.entries.map fun entry => (entry.1, factsToJson entry.2))),
      ("rules", .arr (program.rules.map RuleSource.toJson)),
      ("query", (program.query.map AtomSource.toJson).getD .null) ]

end Source
end Datalog
