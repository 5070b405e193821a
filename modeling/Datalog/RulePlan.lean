import Datalog.Function.Registry
import Datalog.JoinOrder
import Datalog.Store.FactStore

/-!
# Rule plans

Before a rule is run, its variables become numbered slots, its constants are interned, and every
atom is given the pattern and the number of the index in which it is looked up.
-/

namespace Datalog

/-- A term whose variables are slots and whose constants are interned. -/
inductive PlanTerm where
  | slot (number : Nat)
  | const (id : TermId)
  | ctor (name : String) (args : List PlanTerm)
  | call (function : String) (args : List PlanTerm)
  deriving Inhabited

namespace PlanTerm

/-- The number of a constant. -/
def const? : PlanTerm → Option TermId
  | .const id => some id
  | _ => none

/-- The numbers of several terms, if all of them are constants. -/
def consts? : List PlanTerm → Option (List TermId)
  | [] => some []
  | term :: terms =>
      match term.const?, consts? terms with
      | some id, some ids => some (id :: ids)
      | _, _ => none

end PlanTerm

/-- An atom and the index in which it is looked up. -/
structure PlanAtom where
  symbol : RelationSymbol
  args : List PlanTerm
  pattern : Pattern
  /-- The number of the index within the relation. -/
  index : Nat
  /-- Whether the delta of the relation is meant. -/
  delta : Bool
  deriving Inhabited

/-- The arguments in the bound columns. -/
def PlanAtom.boundArgs (atom : PlanAtom) : List PlanTerm :=
  (atom.args.zip atom.pattern).filterMap fun (arg, binding) =>
    if binding = .bound then some arg else none

/-- One step of a plan. -/
inductive PlanLiteral where
  /-- Evaluate one term and match the value against the other. -/
  | unify (source pattern : PlanTerm)
  /-- Evaluate both terms and go on if they differ. -/
  | disunify (lhs rhs : PlanTerm)
  /-- Go on for each tuple that matches an atom. -/
  | scan (atom : PlanAtom)
  /-- Go on if no tuple matches an atom. -/
  | absent (atom : PlanAtom)
  deriving Inhabited

namespace PlanLiteral

def atom? : PlanLiteral → Option PlanAtom
  | .unify .. | .disunify .. => none
  | .scan atom | .absent atom => some atom

/-- Whether a literal enumerates tuples. -/
def isScan : PlanLiteral → Bool
  | .scan _ => true
  | _ => false

end PlanLiteral

/-- A rule that is ready to be run. -/
structure RulePlan where
  /-- The ordered rule that the plan was made from. -/
  source : DeltaRule
  head : List PlanTerm
  body : List PlanLiteral
  /-- The number of slots. -/
  slots : Nat
  deriving Inhabited

namespace RulePlan

def headSymbol (plan : RulePlan) : RelationSymbol :=
  plan.source.head.symbol

/-- The position of the first literal that enumerates tuples. -/
def firstScan? (plan : RulePlan) : Option Nat :=
  plan.body.findIdx? PlanLiteral.isScan

def deltaPosition? (plan : RulePlan) : Option Nat :=
  plan.source.deltaPosition?

def isDeltaRule (plan : RulePlan) : Bool :=
  plan.deltaPosition?.isSome

/-- The relation that the delta literal enumerates. -/
def deltaSymbol? (plan : RulePlan) : Option RelationSymbol :=
  match plan.deltaPosition?.bind fun position => plan.body[position]? with
  | some (.scan atom) => some atom.symbol
  | _ => none

/-- The written form of a literal; the index of an atom follows it. -/
def renderLiteral (literal : BodyLiteral) (planned : PlanLiteral) : String :=
  match planned.atom? with
  | none => literal.render
  | some atom =>
      literal.render ++ " <#" ++ toString atom.index ++ " " ++ atom.pattern.render ++ ">"

def render (plan : RulePlan) : String :=
  renderClause plan.source.head.render (List.zipWith renderLiteral plan.source.body plan.body)

end RulePlan

/-- A query that is ready to filter the tuples of its relation. -/
structure QueryPlan where
  symbol : RelationSymbol
  args : List PlanTerm
  /-- The number of slots. -/
  slots : Nat
  deriving Inhabited

/-! ## Planning -/

namespace Planner

/-- What all plans of an evaluation share while they are made. -/
structure Resources where
  terms : TermStore := {}
  /-- The indices of the store of all tuples. -/
  main : StorePlan
  /-- The indices of the stores of deltas. -/
  delta : StorePlan

/-- What a plan is made from: the functions that may be called, the rule or query that is planned,
and whether delta literals are looked up in the deltas. -/
structure Context where
  functions : Registry
  site : CallSite
  separateDeltas : Bool

/-- The resources, and the names of the variables that have slots. -/
structure State where
  resources : Resources
  names : List String := []

end Planner

/-- A step of planning. -/
abbrev Planner := StateT Planner.State (Except SetupError)

namespace Planner

/-- The slot of a variable; a new variable gets the next one. -/
def slotOf (name : String) : Planner Nat := do
  let state ← get
  match state.names.findIdx? (· = name) with
  | some number => return number
  | none =>
      set { state with names := state.names ++ [name] }
      return state.names.length

def constant (term : GroundTerm) : Planner PlanTerm :=
  modifyGet fun state =>
    let (id, terms) := state.resources.terms.intern term
    (.const id, { state with resources := { state.resources with terms } })

mutual

/-- Plan a term.  A constructor applied to constants is a constant. -/
def term (context : Context) : Term → Planner PlanTerm
  | .var name => return .slot (← slotOf name)
  | .bool value => constant (.bool value)
  | .int value => constant (.int value)
  | .str value => constant (.str value)
  | .ctor name args => do
      let args ← termList context args
      match PlanTerm.consts? args with
      | some ids => constant (.ctor name ids)
      | none => return .ctor name args
  | .call function args => do
      if context.functions.contains function then
        return .call function (← termList context args)
      else
        throw (.unknownFunction function context.site)

def termList (context : Context) : List Term → Planner (List PlanTerm)
  | [] => return []
  | first :: rest => do
      let first ← term context first
      let rest ← termList context rest
      return first :: rest

end

/-- How a lookup treats the column of an argument, given the variables that have values. -/
def bindingOf (count : String → Nat) (bound : List String) (arg : Term) : Binding :=
  if JoinOrder.isBound bound arg then .bound
  else if JoinOrder.isSingleton count arg then .ignored
  else .free

/-- Refuse an atom with the wrong number of arguments. -/
def checkArity (atom : Atom) : Planner Unit :=
  if atom.args.length = atom.symbol.arity then
    return ()
  else
    throw (.arityMismatch atom.symbol.name atom.symbol.arity atom.args.length)

/-- Ask for an index of the main store or of the deltas. -/
def requestIndex (context : Context) (symbol : RelationSymbol) (pattern : Pattern) (delta : Bool) :
    Planner Nat := do
  let state ← get
  let resources := state.resources
  if delta && context.separateDeltas then
    let (number, plan) ← resources.delta.request symbol pattern
    set { state with resources := { resources with delta := plan } }
    return number
  else
    let (number, plan) ← resources.main.request symbol pattern
    set { state with resources := { resources with main := plan } }
    return number

def atom (context : Context) (count : String → Nat) (bound : List String) (delta : Bool)
    (atom : Atom) : Planner PlanAtom := do
  checkArity atom
  let pattern := atom.args.map (bindingOf count bound)
  let args ← termList context atom.args
  let index ← requestIndex context atom.symbol pattern delta
  return { symbol := atom.symbol, args, pattern, index, delta }

def literal (context : Context) (count : String → Nat) (bound : List String)
    (literal : BodyLiteral) : Planner PlanLiteral := do
  match literal.literal with
  | .unification lhs rhs true =>
      let lhs ← term context lhs
      let rhs ← term context rhs
      return .disunify lhs rhs
  | .unification lhs rhs false =>
      let (source, pattern) := if JoinOrder.isBound bound lhs then (lhs, rhs) else (rhs, lhs)
      let source ← term context source
      let pattern ← term context pattern
      return .unify source pattern
  | .predicate predicate =>
      let planned ← atom context count bound literal.delta predicate
      return if predicate.negated then .absent planned else .scan planned

def body (context : Context) (count : String → Nat) (bound : List String) :
    List BodyLiteral → Planner (List PlanLiteral)
  | [] => return []
  | first :: rest => do
      let planned ← literal context count bound first
      let others ← body context count (bound ++ first.vars) rest
      return planned :: others

end Planner

namespace RulePlan

/-- Plan an ordered rule. -/
def ofRule (functions : Registry) (separateDeltas : Bool) (rule : DeltaRule)
    (resources : Planner.Resources) : Except SetupError (RulePlan × Planner.Resources) := do
  let context : Planner.Context := { functions, site := .inRule rule, separateDeltas }
  let planner : Planner (List PlanTerm × List PlanLiteral) := do
    let body ← Planner.body context rule.varCount [] rule.body
    let head ← Planner.termList context rule.head.args
    return (head, body)
  let ((head, body), state) ← planner.run { resources }
  return ({ source := rule, head, body, slots := state.names.length }, state.resources)

end RulePlan

namespace QueryPlan

/-- Plan a query. -/
def ofAtom (functions : Registry) (query : Atom) (resources : Planner.Resources) :
    Except SetupError (QueryPlan × Planner.Resources) := do
  let context : Planner.Context := { functions, site := .inQuery query, separateDeltas := false }
  let planner : Planner (List PlanTerm) := do
    Planner.checkArity query
    Planner.termList context query.args
  let (args, state) ← planner.run { resources }
  return ({ symbol := query.symbol, args, slots := state.names.length }, state.resources)

end QueryPlan

end Datalog
