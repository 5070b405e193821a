import Datalog.Program
import Datalog.Source.Basic
import Datalog.Text.Uppercase

/-!
# From descriptions to programs

A description becomes a program in one pass: declarations, base facts by name of their relation,
rules, and the query.  A bare name is a variable if it starts with a capital letter or an
underscore; the underscore alone is a new variable wherever it stands.
-/

namespace Datalog
namespace Source

/-- A step of the pass: it may take new variables from the counter, and it may fail. -/
abbrev Elaborator := StateT Nat (Except ProgramError)

/-- The variable that stands for the underscore number `index`. -/
def anonymousVar (index : Nat) : Term :=
  .var ("_#" ++ toString index)

/-- A variable that has not been handed out before. -/
def freshVar : Elaborator Term := do
  let index ← get
  set (index + 1)
  return anonymousVar (index + 1)

/-- Whether a bare name is the name of a variable, judged by its first character. -/
def startsVariable (c : Char) : Bool :=
  Text.isUppercase c || c = '_'

/-- The term that a bare name stands for. -/
def termOfName (name : String) : Elaborator Term :=
  match name.toList with
  | [] => throw .emptyName
  | ['_'] => freshVar
  | c :: _ => return if startsVariable c then .var name else .ctor name []

mutual

def TermSource.toTerm : TermSource → Elaborator Term
  | .bool value => return .bool value
  | .int value => return .int value
  | .name bare => termOfName bare
  | .str value => return .str value
  | .ctor constructor args => return .ctor constructor (← TermSource.toTerms args)
  | .call function args => return .call function (← TermSource.toTerms args)

def TermSource.toTerms : List TermSource → Elaborator (List Term)
  | [] => return []
  | term :: terms => return (← term.toTerm) :: (← TermSource.toTerms terms)

end

def findRelation (program : Program) (name : String) : Elaborator RelationSymbol :=
  match program.relation? name with
  | some symbol => return symbol
  | none => throw (.unknownRelation name)

def AtomSource.toAtom (program : Program) (atom : AtomSource) : Elaborator Atom := do
  let symbol ← findRelation program atom.rel
  let args ← TermSource.toTerms atom.args
  return { symbol, args, negated := atom.negated }

def LiteralSource.toLiteral (program : Program) : LiteralSource → Elaborator Literal
  | .eq lhs rhs => return .unification (← lhs.toTerm) (← rhs.toTerm) false
  | .neq lhs rhs => return .unification (← lhs.toTerm) (← rhs.toTerm) true
  | .atom described => return .predicate (← described.toAtom program)

def RuleSource.toRule (program : Program) (rule : RuleSource) : Elaborator Rule := do
  let head ← rule.head.toAtom program
  let body ← rule.body.mapM (LiteralSource.toLiteral program)
  return { head, body }

def declareAll (program : Program) (relations : List RelationDecl) :
    Except ProgramError Program :=
  relations.foldlM (fun program relation => program.declare relation.name relation.arity.toNat)
    program

def addFacts (symbol : RelationSymbol) (program : Program) (facts : List (List TermSource)) :
    Elaborator Program :=
  facts.foldlM
    (fun program described => do
      let args ← TermSource.toTerms described
      program.addFact { symbol, args })
    program

def addFactTable (program : Program) (entries : List (String × List (List TermSource))) :
    Elaborator Program :=
  entries.foldlM
    (fun program entry => do
      let symbol ← findRelation program entry.1
      addFacts symbol program entry.2)
    program

def addRules (program : Program) (rules : List RuleSource) : Elaborator Program :=
  rules.foldlM (fun program rule => do program.addRule (← rule.toRule program)) program

/-- Set the described query, if there is one. -/
def addQuery (program : Program) : Option AtomSource → Elaborator Program
  | none => return program
  | some query => do program.setQuery (← query.toAtom program)

/-- The program that is described, or the first violation of its rules. -/
def ProgramSource.toProgram (source : ProgramSource) : Except ProgramError Program := do
  let program ← declareAll {} source.relations
  let steps : Elaborator Program := do
    let program ← addFactTable program source.facts.entries
    let program ← addRules program source.rules
    addQuery program source.query
  steps.run' 0

end Source
end Datalog
