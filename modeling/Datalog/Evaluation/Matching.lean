import Datalog.Evaluation.Substitution
import Datalog.RulePlan

/-!
# Evaluating and matching planned terms

A planned term whose slots have values is evaluated to an interned term.  Matching goes the other
way: a value is taken apart along a term, and slots without a value are bound.
-/

namespace Datalog

/-- The terms and the slot values that terms are evaluated with. -/
structure Bindings where
  terms : TermStore
  substitution : Substitution
  deriving DecidableEq, Inhabited

/-- A computation that may intern terms and bind slots, and may fail.  What was interned and bound
before a failure stays. -/
abbrev BindM := EStateM TaskError Bindings

namespace BindM

def ofTermM {α : Type} (computation : TermM α) : BindM α := fun bindings =>
  match computation bindings.terms with
  | .ok value terms => .ok value { bindings with terms }
  | .error error terms => .error (.failed error) { bindings with terms }

/-- The value of a slot, if it is bound.  A slot that does not exist is a defect of the plan. -/
def slotValue (slot : Nat) : BindM (Option TermId) := do
  let slots := (← get).substitution.slots
  match slots[slot]? with
  | some value => return value
  | none => throw (.defect (.slotOutOfRange slots.length slot))

def bindSlot (slot : Nat) (value : TermId) : BindM Unit :=
  modify fun bindings =>
    { bindings with substitution := bindings.substitution.bind slot value }

end BindM

namespace PlanTerm

mutual

/-- Evaluate a term whose slots are bound. -/
def eval (functions : Registry) : PlanTerm → BindM TermId
  | .slot number => do
      match ← BindM.slotValue number with
      | some value => return value
      | none => throw (.failed (.nonGround s!"variable slot {number}"))
  | .const id => return id
  | .ctor name args => do
      let args ← evalList functions args
      BindM.ofTermM (internTerm (.ctor name args))
  | .call function args => do
      let args ← evalList functions args
      BindM.ofTermM (functions.call function args)

def evalList (functions : Registry) : List PlanTerm → BindM (List TermId)
  | [] => return []
  | term :: terms => do
      let value ← eval functions term
      let values ← evalList functions terms
      return value :: values

end

mutual

/-- Match a term against a value and bind the slots that have no value.  If the value does not
match, some slots may have been bound already. -/
def matchValue (functions : Registry) : PlanTerm → TermId → BindM Bool
  | .slot number, value => do
      match ← BindM.slotValue number with
      | some present => return present = value
      | none => do
          BindM.bindSlot number value
          return true
  | .const id, value => return id = value
  | .ctor name args, value => do
      match (← get).terms.resolve value with
      | some (.ctor name' values) =>
          if name' = name ∧ values.length = args.length then
            matchList functions args values
          else
            return false
      | _ => return false
  | .call function args, value => do
      let result ← eval functions (.call function args)
      return result = value

/-- Match terms against values from left to right, up to the first that does not match. -/
def matchList (functions : Registry) : List PlanTerm → List TermId → BindM Bool
  | term :: terms, value :: values => do
      if ← matchValue functions term value then
        matchList functions terms values
      else
        return false
  | _, _ => return true

end

end PlanTerm

/-- Whether the columns of a tuple match an atom.  Ignored columns always do; bound columns are
compared only if `checkBound` is set, because a lookup has compared them already. -/
def matchColumns (functions : Registry) (checkBound : Bool) :
    List PlanTerm → Pattern → Tuple → BindM Bool
  | arg :: args, binding :: pattern, value :: tuple => do
      let skip := binding = .ignored || (binding = .bound && !checkBound)
      if ← (if skip then pure true else arg.matchValue functions value) then
        matchColumns functions checkBound args pattern tuple
      else
        return false
  | _, _, _ => return true

namespace QueryPlan

/-- Whether a tuple answers a query. -/
def answers (functions : Registry) (query : QueryPlan) (tuple : Tuple) : TermM Bool := fun terms =>
  match PlanTerm.matchList functions query.args tuple
      { terms, substitution := .unbound query.slots } with
  | .ok value bindings => .ok value bindings.terms
  | .error error bindings => .error error.toEvalError bindings.terms

end QueryPlan

mutual

/-- Evaluate a term of a base fact. -/
def Term.normalize (functions : Registry) : Term → TermM TermId
  | .var name => throw (.nonGround name)
  | .bool value => internTerm (.bool value)
  | .int value => internTerm (.int value)
  | .str value => internTerm (.str value)
  | .ctor name args => do
      let args ← Term.normalizeList functions args
      internTerm (.ctor name args)
  | .call function args => do
      let args ← Term.normalizeList functions args
      functions.call function args

def Term.normalizeList (functions : Registry) : List Term → TermM (List TermId)
  | [] => return []
  | term :: terms => do
      let value ← Term.normalize functions term
      let values ← Term.normalizeList functions terms
      return value :: values

end

end Datalog
