import Datalog.Rule

/-!
# Delta rules

A rule that mentions relations of its own stratum is split into one variant for every such
occurrence.  In each variant that occurrence reads only the tuples that were new in the last round,
its *delta*, while the other occurrences read the whole relation.
-/

namespace Datalog

/-- A body literal, marked when it reads the delta of its relation. -/
structure BodyLiteral where
  literal : Literal
  delta : Bool := false
  deriving DecidableEq, Inhabited

namespace BodyLiteral

/-- The written form of a body literal; the mark comes first. -/
def render (literal : BodyLiteral) : String :=
  (if literal.delta then "Δ" else "") ++ literal.literal.render

def vars (literal : BodyLiteral) : List String :=
  literal.literal.vars

end BodyLiteral

/-- A rule whose body literals may be marked as delta literals. -/
structure DeltaRule where
  head : Atom
  body : List BodyLiteral
  deriving DecidableEq, Inhabited

namespace DeltaRule

/-- A rule without delta literals. -/
def ofRule (rule : Rule) : DeltaRule where
  head := rule.head
  body := rule.body.map fun literal => { literal }

/-- A delta rule with its marks removed. -/
def toRule (rule : DeltaRule) : Rule where
  head := rule.head
  body := rule.body.map (·.literal)

/-- Every occurrence of a variable in a rule, the head's first. -/
def occurrences (rule : DeltaRule) : List String :=
  rule.head.vars ++ rule.body.flatMap BodyLiteral.vars

def varCount (rule : DeltaRule) (name : String) : Nat :=
  rule.occurrences.count name

def deltaPosition? (rule : DeltaRule) : Option Nat :=
  rule.body.findIdx? (·.delta)

theorem isSome_deltaPosition? (rule : DeltaRule) :
    rule.deltaPosition?.isSome = rule.body.any (·.delta) := by
  simp [deltaPosition?, List.findIdx?_isSome]

/-- The literal at the delta position is marked. -/
theorem marked_of_deltaPosition? {rule : DeltaRule} {position : Nat}
    (deltaEq : rule.deltaPosition? = some position) :
    ∃ literal, rule.body[position]? = some literal ∧ literal.delta = true := by
  obtain ⟨inside, isMarked, -⟩ := List.findIdx?_eq_some_iff_getElem.mp deltaEq
  exact ⟨_, List.getElem?_eq_getElem inside, isMarked⟩

def render (rule : DeltaRule) : String :=
  renderClause rule.head.render (rule.body.map BodyLiteral.render)

/-- A rule with the literal at one position marked. -/
def markedAt (rule : Rule) (position : Nat) : DeltaRule where
  head := rule.head
  body := rule.body.mapIdx fun i literal => { literal, delta := i = position }

/-- Whether a literal is a positive atom of one of some relations. -/
def isRecursiveLiteral (stratum : List RelationSymbol) : Literal → Bool
  | .unification .. => false
  | .predicate atom => !atom.negated && stratum.contains atom.symbol

/-- The positions of the positive occurrences of a stratum's relations in a rule's body. -/
def recursivePositions (rule : Rule) (stratum : List RelationSymbol) : List Nat :=
  rule.body.zipIdx.filterMap fun (literal, i) =>
    if isRecursiveLiteral stratum literal then some i else none

/-- The variants of a rule for evaluation within a stratum: one for every positive occurrence of a
stratum relation, with that occurrence marked, and the rule itself if there are none. -/
def variants (rule : Rule) (stratum : List RelationSymbol) : List DeltaRule :=
  match recursivePositions rule stratum with
  | [] => [ofRule rule]
  | positions => positions.map (markedAt rule)

/-- The variable that stands for the call isolated as number `index`. -/
def isolatedVar (index : Nat) : Term :=
  .var ("$d" ++ toString index)

/-- The arguments of a delta literal with every argument that contains a call replaced by a
numbered variable, together with the equations for those variables and the next free number. -/
def isolateArgs (next : Nat) : List Term → List Term × List BodyLiteral × Nat
  | [] => ([], [], next)
  | arg :: args =>
      if arg.containsCall then
        let (args, equations, after) := isolateArgs (next + 1) args
        let equation : BodyLiteral := { literal := .unification (isolatedVar next) arg false }
        (isolatedVar next :: args, equation :: equations, after)
      else
        let (args, equations, after) := isolateArgs next args
        (arg :: args, equations, after)

/-- A body whose delta atoms have no calls among their arguments; the equations that take the
calls' place come right before the atom. -/
def isolateBody (next : Nat) : List BodyLiteral → List BodyLiteral
  | [] => []
  | { literal := .predicate atom, delta := true } :: body =>
      let (args, equations, after) := isolateArgs next atom.args
      equations ++ { literal := .predicate { atom with args }, delta := true }
        :: isolateBody after body
  | literal :: body => literal :: isolateBody next body

/-- A rule whose delta atoms are patterns that can be matched against a tuple without evaluating
anything first. -/
def isolateCalls (rule : DeltaRule) : DeltaRule where
  head := rule.head
  body := isolateBody 0 rule.body

/-- Whether no delta atom of a body comes after another atom; `seen` tells whether an atom came
before. -/
def deltaFirstFrom (seen : Bool) : List BodyLiteral → Bool
  | [] => true
  | { literal := .unification .., .. } :: body => deltaFirstFrom seen body
  | { literal := .predicate _, delta } :: body => !(seen && delta) && deltaFirstFrom true body

/-- Whether no delta atom of a rule comes after another atom. -/
def isDeltaFirst (rule : DeltaRule) : Bool :=
  deltaFirstFrom false rule.body

end DeltaRule

end Datalog
