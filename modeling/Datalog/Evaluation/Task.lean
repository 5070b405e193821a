import Datalog.Evaluation.Matching
import Datalog.Pool
import Datalog.Program

/-!
# Evaluation tasks

The work of an evaluation is cut into tasks: loading a batch of facts, running a rule up to its
first scan, going through the tuples of that scan or splitting them between two tasks, and running a
delta rule for one new tuple.  Within a task the rest of a body is a nested loop that undoes its
bindings after each tuple.
-/

namespace Datalog

/-- What all tasks of an evaluation share. -/
structure Workspace where
  terms : TermStore
  /-- All tuples. -/
  db : FactStore
  /-- The tuples that were new in the last round. -/
  delta : FactStore
  /-- The tuples that are new in this round. -/
  nextDelta : FactStore
  /-- The number of new tuples reported so far. -/
  derived : Nat := 0
  draws : Draws

/-- A unit of work. -/
inductive Task where
  /-- Evaluate base facts and store them. -/
  | load (symbol : RelationSymbol) (facts : List (List Term))
  /-- Run a rule against the stores. -/
  | evaluate (plan : RulePlan)
  /-- Run a rule from one of its scans on, for the tuples of a view. -/
  | scan (plan : RulePlan) (position : Nat) (substitution : Substitution) (view : View)
  /-- Run a delta rule with its delta literal matched against a tuple. -/
  | trigger (plan : RulePlan) (tuple : Tuple)
  deriving Inhabited

/-- Where new tuples go. -/
inductive Strategy where
  /-- New tuples are collected for the next round, and delta literals read those of the last. -/
  | rounds
  /-- New tuples enter the store at once and trigger the delta rules that read their relation. -/
  | eager (rules : List RulePlan)
  deriving Inhabited

/-- What the tasks of a stratum have in common. -/
structure TaskContext where
  functions : Registry
  strategy : Strategy
  /-- The number of tuples up to which a view is not split. -/
  taskSize : Nat

/-- The state of a running task: the shared workspace, its substitution, and the tasks it has
submitted. -/
structure TaskState where
  workspace : Workspace
  substitution : Substitution
  spawned : List Task := []

/-- A step of a task.  What was done before a failure stays. -/
abbrev TaskM := EStateM TaskError TaskState

namespace TaskM

/-- A computation on the terms and the substitution alone. -/
def ofBindM {α : Type} (computation : BindM α) : TaskM α := fun state =>
  match computation { terms := state.workspace.terms, substitution := state.substitution } with
  | .ok value bindings =>
      .ok value
        { state with
          workspace := { state.workspace with terms := bindings.terms }
          substitution := bindings.substitution }
  | .error error bindings =>
      .error error
        { state with
          workspace := { state.workspace with terms := bindings.terms }
          substitution := bindings.substitution }

/-- A computation on the terms alone. -/
def ofTermM {α : Type} (computation : TermM α) : TaskM α :=
  ofBindM (.ofTermM computation)

def spawn (task : Task) : TaskM Unit :=
  modify fun state => { state with spawned := state.spawned ++ [task] }

def updateWorkspace {α : Type} (update : Workspace → α × Workspace) : TaskM α :=
  modifyGet fun state =>
    let (value, workspace) := update state.workspace
    (value, { state with workspace })

def setSubstitution (substitution : Substitution) : TaskM Unit :=
  modify fun state => { state with substitution }

/-- Run a step and then undo its bindings. -/
def undoing (step : TaskM Unit) : TaskM Unit := do
  let checkpoint := (← get).substitution.checkpoint
  step
  modify fun state => { state with substitution := state.substitution.rollback checkpoint }

/-- A place in a plan that no run reaches. -/
def unreachable {α : Type} (reason : String) : TaskM α :=
  throw (.defect (.unreachable reason))

end TaskM

namespace Workspace

/-- Add a tuple to the tuples of this round unless it is known already. -/
def collect (workspace : Workspace) (symbol : RelationSymbol) (tuple : Tuple) :
    Bool × Workspace :=
  if workspace.db.has symbol tuple then
    (false, workspace)
  else
    let (isNew, nextDelta) := workspace.nextDelta.add symbol tuple
    (isNew, { workspace with nextDelta })

def store (workspace : Workspace) (symbol : RelationSymbol) (tuple : Tuple) : Bool × Workspace :=
  let (isNew, db) := workspace.db.add symbol tuple
  (isNew, { workspace with db })

def countDerived (workspace : Workspace) : Workspace :=
  { workspace with derived := workspace.derived + 1 }

end Workspace

namespace TaskContext

/-- The store in which an atom is looked up. -/
def storeFor (context : TaskContext) (atom : PlanAtom) (workspace : Workspace) : FactStore :=
  match context.strategy with
  | .rounds => if atom.delta then workspace.delta else workspace.db
  | .eager _ => workspace.db

/-- The index in which an atom is looked up. -/
def indexFor (context : TaskContext) (atom : PlanAtom) (workspace : Workspace) : Index :=
  ((context.storeFor atom workspace).index? atom.symbol atom.index).getD default

/-- The tuples that an atom may match, given the values of its bound arguments. -/
def lookup (context : TaskContext) (atom : PlanAtom) : TaskM View := do
  let key ← TaskM.ofBindM (PlanTerm.evalList context.functions atom.boundArgs)
  let workspace := (← get).workspace
  return (context.storeFor atom workspace).get atom.symbol atom.index key

/-- Evaluate a literal that has at most one way to hold. -/
def filter (context : TaskContext) : PlanLiteral → TaskM Bool
  | .unify source pattern =>
      TaskM.ofBindM do
        let value ← source.eval context.functions
        pattern.matchValue context.functions value
  | .disunify lhs rhs =>
      TaskM.ofBindM do
        let left ← lhs.eval context.functions
        let right ← rhs.eval context.functions
        return left ≠ right
  | .absent atom => do
      let view ← context.lookup atom
      return view.isEmpty
  | .scan _ => TaskM.unreachable "positive predicates are scanned, not filtered"

/-- Evaluate literals from left to right and keep their bindings. -/
def filterAll (context : TaskContext) : List PlanLiteral → TaskM Bool
  | [] => return true
  | literal :: literals => do
      if ← context.filter literal then
        context.filterAll literals
      else
        return false

/-- Trigger the delta rules that read a relation for a new tuple. -/
def triggerRules (symbol : RelationSymbol) (tuple : Tuple) : List RulePlan → TaskM Unit
  | [] => return ()
  | rule :: rules => do
      if rule.deltaSymbol? = some symbol then
        TaskM.spawn (.trigger rule tuple)
      triggerRules symbol tuple rules

/-- Record a derived tuple, and count it if it is new. -/
def record (context : TaskContext) (symbol : RelationSymbol) (tuple : Tuple) : TaskM Unit :=
  match context.strategy with
  | .rounds => do
      if ← TaskM.updateWorkspace fun workspace => workspace.collect symbol tuple then
        TaskM.updateWorkspace fun workspace => ((), workspace.countDerived)
  | .eager rules => do
      if ← TaskM.updateWorkspace fun workspace => workspace.store symbol tuple then
        TaskM.updateWorkspace fun workspace => ((), workspace.countDerived)
        triggerRules symbol tuple rules

/-- Report the tuple that the head of a rule stands for. -/
def report (context : TaskContext) (plan : RulePlan) : TaskM Unit := do
  let tuple ← TaskM.ofBindM (PlanTerm.evalList context.functions plan.head)
  context.record plan.headSymbol tuple

/-- Match an atom against each of some tuples, and continue with the bindings where it matches. -/
def scanTuples (context : TaskContext) (atom : PlanAtom) (continuation : TaskM Unit) :
    List Tuple → TaskM Unit
  | [] => return ()
  | tuple :: tuples => do
      TaskM.undoing do
        let isMatch ←
          TaskM.ofBindM (matchColumns context.functions false atom.args atom.pattern tuple)
        if isMatch then
          continuation
      scanTuples context atom continuation tuples

/-- Scan a range of keys, chunk by chunk.  The range shrinks with every chunk, so there are no more
chunks than keys. -/
def scanRange (context : TaskContext) (atom : PlanAtom) (continuation : TaskM Unit) :
    (chunks : Nat) → KeyRange → TaskM Unit
  | 0, _ => return ()
  | chunks + 1, keys => do
      let index := context.indexFor atom (← get).workspace
      let (tuples, rest) := index.readChunk keys
      context.scanTuples atom continuation tuples
      match rest with
      | none => return ()
      | some keys => scanRange context atom continuation chunks keys

/-- The number of keys of a given length. -/
def keyCount (length : Nat) : Nat :=
  Nat.pow UInt32.size length

def scanView (context : TaskContext) (atom : PlanAtom) (continuation : TaskM Unit) :
    View → TaskM Unit
  | .array tuples => context.scanTuples atom continuation tuples
  | .range keys _ =>
      context.scanRange atom continuation (keyCount atom.pattern.keyColumns.length + 1) keys

/-- Evaluate the rest of a body and report the head for every way in which it holds. -/
def evalBody (context : TaskContext) (plan : RulePlan) : List PlanLiteral → TaskM Unit
  | [] => context.report plan
  | .scan atom :: rest => do
      let view ← context.lookup atom
      context.scanView atom (context.evalBody plan rest) view
  | literal :: rest =>
      TaskM.undoing do
        if ← context.filter literal then
          context.evalBody plan rest

/-- The atom that a plan scans at a position. -/
def scannedAtom (plan : RulePlan) (position : Nat) : TaskM PlanAtom :=
  match plan.body[position]? with
  | some (.scan atom) => return atom
  | _ => TaskM.unreachable "scan position does not hold a positive predicate"

/-- Run a rule up to its first scan, whose tuples are left to another task. -/
def evaluate (context : TaskContext) (plan : RulePlan) : TaskM Unit := do
  TaskM.setSubstitution (.unbound plan.slots)
  match plan.firstScan? with
  | none => context.evalBody plan plan.body
  | some position => do
      if ← context.filterAll (plan.body.take position) then
        let atom ← scannedAtom plan position
        let view ← context.lookup atom
        TaskM.spawn (.scan plan position (← get).substitution view)

/-- Split a view of the index in which an atom is looked up. -/
def splitView (context : TaskContext) (atom : PlanAtom) (view : View) :
    TaskM (Option (View × View)) :=
  TaskM.updateWorkspace fun workspace =>
    let store := context.storeFor atom workspace
    let (parts, draws) :=
      view.split (context.indexFor atom workspace) store.limits workspace.draws
    (parts, { workspace with draws })

/-- The two parts of a view that is too large for one task. -/
def partsOf (context : TaskContext) (atom : PlanAtom) (view : View) :
    TaskM (Option (View × View)) :=
  if context.taskSize < view.length then context.splitView atom view else pure none

/-- Go through the tuples of a view, or leave its parts to two tasks. -/
def scanParts (context : TaskContext) (plan : RulePlan) (position : Nat)
    (substitution : Substitution) (atom : PlanAtom) (view : View) :
    Option (View × View) → TaskM Unit
  | some (left, right) => do
      TaskM.spawn (.scan plan position substitution left)
      TaskM.spawn (.scan plan position substitution right)
  | none => do
      TaskM.setSubstitution substitution
      context.scanView atom (context.evalBody plan (plan.body.drop (position + 1))) view

/-- Go through the tuples of a scan, or split them between two tasks if there are many. -/
def scan (context : TaskContext) (plan : RulePlan) (position : Nat)
    (substitution : Substitution) (view : View) : TaskM Unit := do
  let atom ← scannedAtom plan position
  let parts ← context.partsOf atom view
  context.scanParts plan position substitution atom view parts

/-- Run a delta rule with its delta literal matched against a tuple. -/
def trigger (context : TaskContext) (plan : RulePlan) (tuple : Tuple) : TaskM Unit := do
  match plan.deltaPosition? with
  | none => return ()
  | some position => do
      TaskM.setSubstitution (.unbound plan.slots)
      if ← context.filterAll (plan.body.take position) then
        let atom ← scannedAtom plan position
        let isMatch ←
          TaskM.ofBindM (matchColumns context.functions true atom.args atom.pattern tuple)
        if isMatch then
          context.evalBody plan (plan.body.drop (position + 1))

/-- Name the fact whose evaluation failed; a panic is passed on as it is. -/
def loadError (fact : Fact) : EvalError → EvalError
  | .panicked text => .panicked text
  | error => .normalize fact.toAtom error

/-- Evaluate the arguments of a base fact. -/
def loadFact (context : TaskContext) (fact : Fact) : TermM Tuple := fun terms =>
  match Term.normalizeList context.functions fact.args terms with
  | .ok tuple terms => .ok tuple terms
  | .error error terms => .error (loadError fact error) terms

/-- Evaluate and store base facts, up to the first that fails. -/
def load (context : TaskContext) (symbol : RelationSymbol) : List (List Term) → TaskM Unit
  | [] => return ()
  | args :: facts => do
      let tuple ← TaskM.ofTermM (context.loadFact { symbol, args })
      let _ ← TaskM.updateWorkspace fun workspace => workspace.store symbol tuple
      load context symbol facts

def steps (context : TaskContext) : Task → TaskM Unit
  | .load symbol facts => context.load symbol facts
  | .evaluate plan => context.evaluate plan
  | .scan plan position substitution view => context.scan plan position substitution view
  | .trigger plan tuple => context.trigger plan tuple

def run (context : TaskContext) (task : Task) (workspace : Workspace) :
    TaskResult Task Workspace TaskError :=
  match context.steps task { workspace, substitution := .unbound 0 } with
  | .ok _ state =>
      { outcome := .ok (), spawned := state.spawned, state := state.workspace }
  | .error error state =>
      { outcome := .error error, spawned := state.spawned, state := state.workspace }

end TaskContext

end Datalog
