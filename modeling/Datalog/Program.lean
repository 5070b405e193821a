import Datalog.Error

/-!
# Programs

A program declares relations and holds base facts, rules and at most one query over them.  Every
operation checks that the relations it is given are declared and used with the right number of
arguments, and a refused operation leaves the program as it was.
-/

namespace Datalog

/-- A base fact: a relation and one term for each of its columns. -/
structure Fact where
  symbol : RelationSymbol
  args : List Term
  deriving DecidableEq, Inhabited

/-- The atom that states a fact. -/
def Fact.toAtom (fact : Fact) : Atom where
  symbol := fact.symbol
  args := fact.args

/-- A program: relations in declaration order, facts and rules in the order in which they were
added, and the query. -/
structure Program where
  relations : List RelationSymbol := []
  facts : List Fact := []
  rules : List Rule := []
  query : Option Atom := none
  deriving DecidableEq, Inhabited

namespace Program

def relation? (program : Program) (name : String) : Option RelationSymbol :=
  program.relations.find? (·.name = name)

/-- Declare a relation.  Declaring it again with the same number of columns changes nothing. -/
def declare (program : Program) (name : String) (arity : Nat) : Except ProgramError Program :=
  match program.relation? name with
  | some declared =>
      if declared.arity = arity then .ok program
      else .error (.duplicateRelation name declared.arity arity)
  | none => .ok { program with relations := program.relations ++ [{ name, arity }] }

/-- Check that a relation is declared and that it is used with the right number of arguments. -/
def checkUse (program : Program) (symbol : RelationSymbol) (args : List Term) :
    Except ProgramError Unit :=
  match program.relation? symbol.name with
  | none => .error (.unknownRelation symbol.name)
  | some declared =>
      if declared ≠ symbol then
        .error (.arityMismatch symbol.name declared.arity symbol.arity)
      else if args.length ≠ symbol.arity then
        .error (.arityMismatch symbol.name symbol.arity args.length)
      else
        .ok ()

/-- Check the atoms among some literals, from left to right. -/
def checkBody (program : Program) : List Literal → Except ProgramError Unit
  | [] => .ok ()
  | .unification .. :: body => checkBody program body
  | .predicate atom :: body => do
      program.checkUse atom.symbol atom.args
      checkBody program body

/-- Add a base fact.  Its arguments must be free of variables but may contain calls, which are
evaluated when the facts are loaded. -/
def addFact (program : Program) (fact : Fact) : Except ProgramError Program := do
  program.checkUse fact.symbol fact.args
  if Term.isGroundList fact.args then
    .ok { program with facts := program.facts ++ [fact] }
  else
    .error (.nonGroundFact fact.toAtom)

def addRule (program : Program) (rule : Rule) : Except ProgramError Program := do
  program.checkUse rule.head.symbol rule.head.args
  program.checkBody rule.body
  .ok { program with rules := program.rules ++ [rule] }

/-- Set the query, in place of an earlier one. -/
def setQuery (program : Program) (query : Atom) : Except ProgramError Program := do
  program.checkUse query.symbol query.args
  .ok { program with query := some query }

/-- The arguments of a relation's base facts, in the order in which they were added. -/
def factsFor (program : Program) (symbol : RelationSymbol) : List (List Term) :=
  (program.facts.filter (·.symbol = symbol)).map (·.args)

/-- The relations that have base facts, in declaration order, with these facts. -/
def factGroups (program : Program) : List (RelationSymbol × List (List Term)) :=
  (program.relations.map fun symbol => (symbol, program.factsFor symbol)).filter
    fun group => !group.2.isEmpty

def rulesFor (program : Program) (symbol : RelationSymbol) : List Rule :=
  program.rules.filter (·.head.symbol = symbol)

/-- The relations that are defined by at least one rule, in declaration order. -/
def ruleSymbols (program : Program) : List RelationSymbol :=
  program.relations.filter fun symbol => program.rules.any (·.head.symbol = symbol)

end Program

end Datalog
