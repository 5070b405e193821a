import Datalog.Proofs.Evaluation.Scoping

/-!
# What holds while a task runs

A moment is a step that is about to be made, with the state that it is made in.  A step calls others:
a task runs filters and bodies, a body looks at its first literal, a scan goes through its tuples, and a
match goes through the columns of a tuple and the arguments of a term.  What every call preserves holds
at each moment of a run, however deep in the nested loop and whether or not the run ends.

Evaluating a term changes no substitution and is not taken apart.
-/

namespace Datalog

/-- A scan within a body. -/
structure ScanFrame where
  /-- The substitution that the scan was entered with. -/
  entry : Substitution
  atom : PlanAtom
  plan : RulePlan
  /-- The literals after the scan. -/
  rest : List PlanLiteral

/-- A step with its arguments. -/
inductive Place where
  | task (task : Task)
  | filters (literals : List PlanLiteral)
  | filter (literal : PlanLiteral)
  | body (plan : RulePlan) (literals : List PlanLiteral)
  | view (frame : ScanFrame) (view : View)
  | range (frame : ScanFrame) (chunks : Nat) (keys : KeyRange)
  | tuples (frame : ScanFrame) (tuples : List Tuple)
  | columns (checkBound : Bool) (args : List PlanTerm) (pattern : Pattern) (tuple : Tuple)
  | terms (terms : List PlanTerm) (values : List TermId)
  | term (term : PlanTerm) (value : TermId)

/-- A step that is about to be made. -/
structure Moment where
  place : Place
  state : TaskState

theorem leftBy_of_leaves {ε σ α : Type} {computation : EStateM ε σ α} {start : σ}
    {holds : σ → Prop}
    (leaves : Leaves computation start (fun _ state => holds state) fun _ state => holds state) :
    holds (leftBy (computation start)) := by
  unfold Leaves at leaves
  split at leaves
  all_goals
    next outcome =>
      rw [outcome]
      exact leaves

namespace TaskContext

/-- What is done with every match of a scan. -/
def continuation (context : TaskContext) (frame : ScanFrame) : TaskM Unit :=
  context.evalBody frame.plan frame.rest

/-- Match a column, unless the lookup has done so already. -/
def column (context : TaskContext) (checkBound : Bool) (arg : PlanTerm) (binding : Binding)
    (value : TermId) : BindM Bool :=
  if binding = .ignored || (binding = .bound && !checkBound) then pure true
  else arg.matchValue context.functions value

/-- The state after a moment. -/
def after (context : TaskContext) (moment : Moment) : TaskState :=
  match moment.place with
  | .task task => leftBy (context.steps task moment.state)
  | .filters literals => leftBy (context.filterAll literals moment.state)
  | .filter literal => leftBy (context.filter literal moment.state)
  | .body plan literals => leftBy (context.evalBody plan literals moment.state)
  | .view frame view =>
      leftBy (context.scanView frame.atom (context.continuation frame) view moment.state)
  | .range frame chunks keys =>
      leftBy (context.scanRange frame.atom (context.continuation frame) chunks keys moment.state)
  | .tuples frame tuples =>
      leftBy (context.scanTuples frame.atom (context.continuation frame) tuples moment.state)
  | .columns checkBound args pattern tuple =>
      leftBy (TaskM.ofBindM (matchColumns context.functions checkBound args pattern tuple)
        moment.state)
  | .terms terms values =>
      leftBy (TaskM.ofBindM (PlanTerm.matchList context.functions terms values) moment.state)
  | .term term value =>
      leftBy (TaskM.ofBindM (term.matchValue context.functions value) moment.state)

/-- A step calls another one, after those that it has called before have ended. -/
inductive Calls (context : TaskContext) : Moment → Moment → Prop where
  /-- Without a scan the whole body is evaluated. -/
  | evaluateBody {plan : RulePlan} {state : TaskState} (noScan : plan.firstScan? = none) :
      Calls context ⟨.task (.evaluate plan), state⟩
        ⟨.body plan plan.body, { state with substitution := .unbound plan.slots }⟩
  | evaluateFilters {plan : RulePlan} {state : TaskState} {position : Nat}
      (first : plan.firstScan? = some position) :
      Calls context ⟨.task (.evaluate plan), state⟩
        ⟨.filters (plan.body.take position), { state with substitution := .unbound plan.slots }⟩
  | triggerFilters {plan : RulePlan} {tuple : Tuple} {state : TaskState} {position : Nat}
      (delta : plan.deltaPosition? = some position) :
      Calls context ⟨.task (.trigger plan tuple), state⟩
        ⟨.filters (plan.body.take position), { state with substitution := .unbound plan.slots }⟩
  | triggerColumns {plan : RulePlan} {tuple : Tuple} {state middle : TaskState} {position : Nat}
      {atom : PlanAtom} (delta : plan.deltaPosition? = some position)
      (filtered : context.filterAll (plan.body.take position)
        { state with substitution := .unbound plan.slots } = .ok true middle)
      (scanned : plan.body[position]? = some (.scan atom)) :
      Calls context ⟨.task (.trigger plan tuple), state⟩
        ⟨.columns true atom.args atom.pattern tuple, middle⟩
  | triggerBody {plan : RulePlan} {tuple : Tuple} {state middle later : TaskState} {position : Nat}
      {atom : PlanAtom} (delta : plan.deltaPosition? = some position)
      (filtered : context.filterAll (plan.body.take position)
        { state with substitution := .unbound plan.slots } = .ok true middle)
      (scanned : plan.body[position]? = some (.scan atom))
      (matched : TaskM.ofBindM (matchColumns context.functions true atom.args atom.pattern tuple)
        middle = .ok true later) :
      Calls context ⟨.task (.trigger plan tuple), state⟩
        ⟨.body plan (plan.body.drop (position + 1)), later⟩
  /-- A small view is gone through at once. -/
  | scan {plan : RulePlan} {position : Nat} {substitution : Substitution} {view : View}
      {state middle : TaskState} {atom : PlanAtom}
      (scanned : plan.body[position]? = some (.scan atom))
      (whole : context.partsOf atom view state = .ok none middle) :
      Calls context ⟨.task (.scan plan position substitution view), state⟩
        ⟨.view ⟨substitution, atom, plan, plan.body.drop (position + 1)⟩ view,
          { middle with substitution }⟩
  /-- A task that was left to others is run at some time, whatever the workspace is like then. -/
  | spawned {task other : Task} {state : TaskState} (workspace : Workspace)
      (spawned : other ∈ (context.run task state.workspace).spawned) :
      Calls context ⟨.task task, state⟩
        ⟨.task other, { workspace, substitution := .unbound 0 }⟩
  | firstFilter {literal : PlanLiteral} {literals : List PlanLiteral} {state : TaskState} :
      Calls context ⟨.filters (literal :: literals), state⟩ ⟨.filter literal, state⟩
  | nextFilters {literal : PlanLiteral} {literals : List PlanLiteral} {state later : TaskState}
      (holds : context.filter literal state = .ok true later) :
      Calls context ⟨.filters (literal :: literals), state⟩ ⟨.filters literals, later⟩
  | pattern {source pattern : PlanTerm} {state : TaskState} {value : TermId} {bindings : Bindings}
      (evaluated : source.eval context.functions state.bindings = .ok value bindings) :
      Calls context ⟨.filter (.unify source pattern), state⟩
        ⟨.term pattern value, state.withBindings bindings⟩
  | bodyFilter {plan : RulePlan} {literal : PlanLiteral} {literals : List PlanLiteral}
      {state : TaskState} (filters : literal.isScan = false) :
      Calls context ⟨.body plan (literal :: literals), state⟩ ⟨.filter literal, state⟩
  | bodyRest {plan : RulePlan} {literal : PlanLiteral} {literals : List PlanLiteral}
      {state later : TaskState} (filters : literal.isScan = false)
      (holds : context.filter literal state = .ok true later) :
      Calls context ⟨.body plan (literal :: literals), state⟩ ⟨.body plan literals, later⟩
  /-- A scan is entered with the substitution that the lookup leaves. -/
  | bodyScan {plan : RulePlan} {atom : PlanAtom} {literals : List PlanLiteral}
      {state later : TaskState} {view : View} (found : context.lookup atom state = .ok view later) :
      Calls context ⟨.body plan (.scan atom :: literals), state⟩
        ⟨.view ⟨later.substitution, atom, plan, literals⟩ view, later⟩
  | array {frame : ScanFrame} {tuples : List Tuple} {state : TaskState} :
      Calls context ⟨.view frame (.array tuples), state⟩ ⟨.tuples frame tuples, state⟩
  | firstRange {frame : ScanFrame} {keys : KeyRange} {count : Nat} {state : TaskState} :
      Calls context ⟨.view frame (.range keys count), state⟩
        ⟨.range frame (keyCount frame.atom.pattern.keyColumns.length + 1) keys, state⟩
  | chunk {frame : ScanFrame} {chunks : Nat} {keys : KeyRange} {state : TaskState} :
      Calls context ⟨.range frame (chunks + 1) keys, state⟩
        ⟨.tuples frame ((context.indexFor frame.atom state.workspace).readChunk keys).1, state⟩
  | nextRange {frame : ScanFrame} {chunks : Nat} {keys keys' : KeyRange} {tuples : List Tuple}
      {state later : TaskState}
      (read : (context.indexFor frame.atom state.workspace).readChunk keys = (tuples, some keys'))
      (scanned : context.scanTuples frame.atom (context.continuation frame) tuples state =
        .ok () later) :
      Calls context ⟨.range frame (chunks + 1) keys, state⟩ ⟨.range frame chunks keys', later⟩
  | firstTuple {frame : ScanFrame} {tuple : Tuple} {tuples : List Tuple} {state : TaskState} :
      Calls context ⟨.tuples frame (tuple :: tuples), state⟩
        ⟨.columns false frame.atom.args frame.atom.pattern tuple, state⟩
  | continuation {frame : ScanFrame} {tuple : Tuple} {tuples : List Tuple}
      {state later : TaskState}
      (matched : TaskM.ofBindM (matchColumns context.functions false frame.atom.args
        frame.atom.pattern tuple) state = .ok true later) :
      Calls context ⟨.tuples frame (tuple :: tuples), state⟩ ⟨.body frame.plan frame.rest, later⟩
  | nextTuples {frame : ScanFrame} {tuple : Tuple} {tuples : List Tuple} {state later : TaskState}
      (scanned : context.scanTuples frame.atom (context.continuation frame) [tuple] state =
        .ok () later) :
      Calls context ⟨.tuples frame (tuple :: tuples), state⟩ ⟨.tuples frame tuples, later⟩
  | firstColumn {checkBound : Bool} {arg : PlanTerm} {args : List PlanTerm} {binding : Binding}
      {pattern : Pattern} {value : TermId} {tuple : Tuple} {state : TaskState} :
      Calls context ⟨.columns checkBound (arg :: args) (binding :: pattern) (value :: tuple), state⟩
        ⟨.term arg value, state⟩
  | nextColumns {checkBound : Bool} {arg : PlanTerm} {args : List PlanTerm} {binding : Binding}
      {pattern : Pattern} {value : TermId} {tuple : Tuple} {state later : TaskState}
      (matched : TaskM.ofBindM (context.column checkBound arg binding value) state =
        .ok true later) :
      Calls context ⟨.columns checkBound (arg :: args) (binding :: pattern) (value :: tuple), state⟩
        ⟨.columns checkBound args pattern tuple, later⟩
  | arguments {name : String} {args : List PlanTerm} {values : List TermId} {value : TermId}
      {state : TaskState} (resolved : state.workspace.terms.resolve value = some (.ctor name values))
      (sameLength : values.length = args.length) :
      Calls context ⟨.term (.ctor name args) value, state⟩ ⟨.terms args values, state⟩
  | firstTerm {term : PlanTerm} {terms : List PlanTerm} {value : TermId} {values : List TermId}
      {state : TaskState} :
      Calls context ⟨.terms (term :: terms) (value :: values), state⟩ ⟨.term term value, state⟩
  | nextTerms {term : PlanTerm} {terms : List PlanTerm} {value : TermId} {values : List TermId}
      {state later : TaskState}
      (matched : TaskM.ofBindM (term.matchValue context.functions value) state = .ok true later) :
      Calls context ⟨.terms (term :: terms) (value :: values), state⟩ ⟨.terms terms values, later⟩

/-- One moment follows from another through calls. -/
def Reaches (context : TaskContext) : Moment → Moment → Prop :=
  Relation.ReflTransGen context.Calls

end TaskContext

/-! ## The scope of bindings -/

/-- A scan goes on with the substitution that it was entered with. -/
def Place.Fits (substitution : Substitution) : Place → Prop
  | .task pending => pending.Tidy
  | .view frame _ | .range frame _ _ | .tuples frame _ => substitution = frame.entry
  | .filters _ | .filter _ | .body .. | .columns .. | .terms .. | .term .. => True

/-- The trail lists the bound slots, and no binding of an earlier tuple is left. -/
structure Moment.InScope (moment : Moment) : Prop where
  tidy : moment.state.substitution.Tidy
  fits : moment.place.Fits moment.state.substitution

section Outcome

variable {α : Type} {step : TaskM α} {state later : TaskState} {value : α}

theorem Advances.tidy (advances : Advances step) (tidy : state.substitution.Tidy)
    (outcome : step state = .ok value later) : later.substitution.Tidy :=
  ((advances state).of_ok outcome).extended.tidy tidy

theorem Restores.substitution_eq (restores : Restores step)
    (outcome : step state = .ok value later) : later.substitution = state.substitution :=
  ((restores state).of_ok outcome).2

theorem Advances.tidy_leftBy (advances : Advances step) (tidy : state.substitution.Tidy) :
    (leftBy (step state)).substitution.Tidy :=
  (leftBy_of_leaves (advances state)).extended.tidy tidy

end Outcome

namespace TaskContext

variable {context : TaskContext}

theorem matchValue_advances (term : PlanTerm) (value : TermId) :
    Advances (TaskM.ofBindM (term.matchValue context.functions value)) :=
  .ofBindM fun bindings => (PlanTerm.matchValue_within term value bindings).mono
    (fun _ _ within => within.extended) fun _ _ within => within.extended

theorem matchList_advances (terms : List PlanTerm) (values : List TermId) :
    Advances (TaskM.ofBindM (PlanTerm.matchList context.functions terms values)) :=
  .ofBindM fun bindings => (PlanTerm.matchList_within terms values bindings).mono
    (fun _ _ within => within.extended) fun _ _ within => within.extended

theorem column_advances (checkBound : Bool) (arg : PlanTerm) (binding : Binding) (value : TermId) :
    Advances (TaskM.ofBindM (context.column checkBound arg binding value)) := by
  unfold column
  split
  · exact .pure
  · exact matchValue_advances arg value

theorem continuation_restores (frame : ScanFrame) : Restores (context.continuation frame) :=
  evalBody_restores frame.plan frame.rest

/-- What one call preserves. -/
theorem Calls.inScope {earlier later : Moment} (calls : context.Calls earlier later)
    (inScope : earlier.InScope) : later.InScope := by
  obtain ⟨tidy, fits⟩ := inScope
  cases calls with
  | evaluateBody | evaluateFilters | triggerFilters => exact ⟨Substitution.tidy_unbound _, trivial⟩
  | triggerColumns _ filtered _ =>
      exact ⟨(filterAll_advances _).tidy (Substitution.tidy_unbound _) filtered, trivial⟩
  | @triggerBody _ tuple _ _ _ _ _ _ filtered _ matched =>
      have tidyMiddle := (filterAll_advances _).tidy (Substitution.tidy_unbound _) filtered
      exact ⟨(matchColumns_advances true _ _ tuple).tidy tidyMiddle matched, trivial⟩
  | scan => exact ⟨fits, rfl⟩
  | spawned workspace spawned =>
      exact ⟨Substitution.tidy_unbound 0, run_spawned_tidy fits _ _ spawned⟩
  | firstFilter | bodyFilter | firstTuple | firstColumn | arguments | firstTerm =>
      exact ⟨tidy, trivial⟩
  | nextFilters holds => exact ⟨(filter_advances _).tidy tidy holds, trivial⟩
  | @pattern source _ _ _ _ evaluated =>
      have same := (PlanTerm.eval_keeps source _).of_ok evaluated
      exact ⟨(Substitution.Extends.of_eq same).tidy tidy, trivial⟩
  | bodyRest _ holds => exact ⟨(filter_advances _).tidy tidy holds, trivial⟩
  | @bodyScan _ atom _ _ _ _ found =>
      exact ⟨(lookup_restores atom).advances.tidy tidy found, rfl⟩
  | array | firstRange | chunk => exact ⟨tidy, fits⟩
  | nextRange _ scanned | nextTuples scanned =>
      have same := (scanTuples_restores (continuation_restores _) _).substitution_eq scanned
      exact ⟨(Substitution.Extends.of_eq same).tidy tidy, same.trans fits⟩
  | @continuation _ tuple _ _ _ matched =>
      exact ⟨(matchColumns_advances false _ _ tuple).tidy tidy matched, trivial⟩
  | @nextColumns checkBound arg _ binding _ value _ _ _ matched =>
      exact ⟨(column_advances checkBound arg binding value).tidy tidy matched, trivial⟩
  | @nextTerms term _ value _ _ _ matched =>
      exact ⟨(matchValue_advances term value).tidy tidy matched, trivial⟩

/-- What a whole run preserves. -/
theorem Reaches.inScope {earlier later : Moment} (reaches : context.Reaches earlier later)
    (inScope : earlier.InScope) : later.InScope := by
  induction reaches with
  | refl => exact inScope
  | tail _ calls ih => exact calls.inScope ih

/-- A step leaves a tidy substitution behind, whether it ends or stops. -/
theorem tidy_after {moment : Moment} (inScope : moment.InScope) :
    (context.after moment).substitution.Tidy := by
  obtain ⟨place, state⟩ := moment
  obtain ⟨tidy, fits⟩ := inScope
  cases place with
  | task task =>
      have tidies : Tidies (context.steps task) := steps_tidies fits
      exact (leftBy_of_leaves (tidies state tidy)).substitution
  | filters literals => exact (filterAll_advances literals).tidy_leftBy tidy
  | filter literal => exact (filter_advances literal).tidy_leftBy tidy
  | body plan literals => exact (evalBody_restores plan literals).advances.tidy_leftBy tidy
  | view frame view =>
      exact (scanView_restores (continuation_restores frame) view).advances.tidy_leftBy tidy
  | range frame chunks keys =>
      exact (scanRange_restores (continuation_restores frame) chunks keys).advances.tidy_leftBy tidy
  | tuples frame tuples =>
      exact (scanTuples_restores (continuation_restores frame) tuples).advances.tidy_leftBy tidy
  | columns checkBound args pattern tuple =>
      exact (matchColumns_advances checkBound args pattern tuple).tidy_leftBy tidy
  | terms terms values => exact (matchList_advances terms values).tidy_leftBy tidy
  | term term value => exact (matchValue_advances term value).tidy_leftBy tidy

/-- A body or a scan that ends leaves the substitution that it was entered with, and one that stops has
only added bindings to it.  At every moment before, and after every step, the trail lists the bound
slots, each once; and whenever a scan goes on with a tuple, the bindings are those that the scan was
entered with. -/
theorem evaluation_inScope (context : TaskContext) :
    (∀ (plan : RulePlan) (literals : List PlanLiteral) (state : TaskState),
      Leaves (context.evalBody plan literals) state
        (fun _ later => later.substitution = state.substitution)
        fun _ later => later.substitution.Extends state.substitution) ∧
    (∀ (plan : RulePlan) (atom : PlanAtom) (literals : List PlanLiteral) (view : View)
        (state : TaskState),
      Leaves (context.scanView atom (context.evalBody plan literals) view) state
        (fun _ later => later.substitution = state.substitution)
        fun _ later => later.substitution.Extends state.substitution) ∧
    ∀ earlier later : Moment, earlier.InScope → context.Reaches earlier later →
      later.InScope ∧ (context.after later).substitution.Tidy := by
  have restored {step : TaskM Unit} (restores : Restores step) (state : TaskState) :
      Leaves step state (fun _ later => later.substitution = state.substitution)
        fun _ later => later.substitution.Extends state.substitution :=
    (restores state).mono (fun _ _ both => both.2) fun _ _ follows => follows.extended
  refine ⟨fun plan literals => restored (evalBody_restores plan literals), ?_, ?_⟩
  · intro plan atom literals view
    exact restored (scanView_restores (evalBody_restores plan literals) view)
  · intro earlier later inScope reaches
    have inScopeLater := reaches.inScope inScope
    exact ⟨inScopeLater, tidy_after inScopeLater⟩

end TaskContext

namespace Sample

def scopeContext : TaskContext where
  functions := .builtins
  strategy := .rounds
  taskSize := 64

/-- A scan of a relation of one column, whose value has to be the second term. -/
def scopeFrame : ScanFrame where
  entry := .unbound 1
  atom := { symbol := ⟨"q", 1⟩, args := [.slot 0], pattern := [.free], index := 0, delta := false }
  plan := default
  rest := [.unify (.slot 0) (.const ⟨1⟩)]

/-- Two terms are interned, and slots have values as given. -/
def scopeState (substitution : Substitution) : TaskState where
  workspace :=
    { terms := { terms := #[.int 5, .int 6] }
      db := default, delta := default, nextDelta := default, draws := { number := id } }
  substitution

end Sample

namespace TaskContext

/-- The value of the first tuple is gone when the second one has been matched. -/
theorem evaluation_inScope_sample :
    let start : Moment :=
      ⟨.tuples Sample.scopeFrame [[⟨0⟩], [⟨1⟩]], Sample.scopeState (.unbound 1)⟩
    let later : Moment :=
      ⟨.body Sample.scopeFrame.plan Sample.scopeFrame.rest,
        Sample.scopeState { slots := [some ⟨1⟩], trail := [0] }⟩
    start.InScope ∧ Sample.scopeContext.Reaches start later ∧ later.InScope ∧
      (Sample.scopeContext.after later).substitution.Tidy := by
  intro start later
  have inScope : start.InScope := ⟨Substitution.tidy_unbound 1, rfl⟩
  have firstDone : Sample.scopeContext.scanTuples Sample.scopeFrame.atom
      (Sample.scopeContext.continuation Sample.scopeFrame) [[⟨0⟩]] start.state =
        .ok () start.state := by
    with_unfolding_all rfl
  have secondMatched : TaskM.ofBindM (matchColumns Sample.scopeContext.functions false
      Sample.scopeFrame.atom.args Sample.scopeFrame.atom.pattern [⟨1⟩]) start.state =
        .ok true later.state := by
    with_unfolding_all rfl
  have reaches : Sample.scopeContext.Reaches start later :=
    .tail (.single (.nextTuples firstDone)) (.continuation secondMatched)
  exact ⟨inScope, reaches, (evaluation_inScope Sample.scopeContext).2.2 start later inScope reaches⟩

end TaskContext

end Datalog
