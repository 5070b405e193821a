import Datalog.Proofs.Evaluation.Outcome

/-!
# Terms only grow

The steps of an evaluation change the terms by interning and by calling functions only.  So they keep,
whether they end well or fail, whatever interning and the functions keep: the terms that are there, and
that every term is stored once if the functions see to that.
-/

namespace Datalog

open Interning (terms)

variable (functions : Registry)

/-! ## Functions -/

theorem interns_internTerm (term : GroundTerm) : Interns (internTerm term) :=
  fun store => TermStore.extends_intern store term

theorem Registry.interns_settle {α : Type} (describe : String → EvalError)
    {outcome : TermStore → Except Fault α × TermStore}
    (grows : ∀ store, (outcome store).2.Extends store) :
    Interns fun store => settle describe (outcome store) := by
  intro store
  have grown := grows store
  unfold Leaves settle
  cases outcomeEq : outcome store with
  | mk result later =>
      rw [outcomeEq] at grown
      simp only [outcomeEq]
      cases result <;> exact grown

theorem Registry.interns_askSolver (name : String) (solver : Solver) (negate : Bool)
    (args : List TermId) : Interns (askSolver name solver negate args) := by
  unfold askSolver
  split
  · extract_lets answering
    have interns : ∀ assertion, Interns (answering assertion) := by
      intro assertion
      refine .bind (interns_settle _ fun store => solver.extends_check store assertion) fun answer => ?_
      cases answer with
      | sat => exact interns_internTerm _
      | unsat => exact interns_internTerm _
      | unknown => exact .throw
    split
    · exact .bind (interns_internTerm _) interns
    · exact .bind .pure interns
  · exact .throw

theorem Registry.interns_call (name : String) (args : List TermId) :
    Interns (functions.call name args) := by
  unfold call
  split
  · exact .throw
  · next function _ => exact interns_settle _ fun store => function.extends_apply store args
  · exact interns_askSolver _ _ _ _

/-- Interning a term and calling a function keep a condition on the terms. -/
class Registry.Preserves (functions : Registry) (holds : TermStore → Prop) : Prop where
  intern : ∀ term, Keeps holds (internTerm term)
  apply : ∀ name args, Keeps holds (functions.call name args)

instance Registry.preserves_extends (earlier : TermStore) :
    functions.Preserves fun store => store.Extends earlier where
  intern term := interns_iff_keeps.mp (interns_internTerm term) earlier
  apply name args := interns_iff_keeps.mp (functions.interns_call name args) earlier

variable {holds : TermStore → Prop}

theorem Registry.keeps_internTerm [preserves : functions.Preserves holds] (term : GroundTerm) :
    Keeps holds (internTerm term) :=
  preserves.intern term

theorem Registry.keeps_call [preserves : functions.Preserves holds] (name : String)
    (args : List TermId) : Keeps holds (functions.call name args) :=
  preserves.apply name args

/-! ## Terms -/

theorem BindM.keeps_ofTermM {α : Type} {computation : TermM α} (keeps : Keeps holds computation) :
    Keeps holds (BindM.ofTermM computation) := by
  intro bindings held
  have kept := keeps bindings.terms held
  unfold Leaves at kept ⊢
  unfold BindM.ofTermM
  split at kept <;> simp_all [terms]

theorem BindM.keeps_slotValue (slot : Nat) : Keeps holds (BindM.slotValue slot) := by
  refine .get_bind fun bindings => ?_
  dsimp only
  split
  · exact .pure
  · exact .throw

namespace PlanTerm

mutual

theorem keeps_eval [functions.Preserves holds] : (term : PlanTerm) → Keeps holds (term.eval functions)
  | .slot number => by
      unfold eval
      refine .bind (BindM.keeps_slotValue number) fun value => ?_
      cases value with
      | some value => exact .pure
      | none => exact .throw
  | .const _ => by
      unfold eval
      exact .pure
  | .ctor _ args => by
      unfold eval
      exact .bind (keeps_evalList args) fun _ => BindM.keeps_ofTermM (functions.keeps_internTerm _)
  | .call _ args => by
      unfold eval
      exact .bind (keeps_evalList args) fun _ => BindM.keeps_ofTermM (functions.keeps_call _ _)

theorem keeps_evalList [functions.Preserves holds] :
    (args : List PlanTerm) → Keeps holds (evalList functions args)
  | [] => by
      unfold evalList
      exact .pure
  | term :: args => by
      unfold evalList
      exact .bind (keeps_eval term) fun _ => .bind (keeps_evalList args) fun _ => .pure

end

mutual

theorem keeps_matchValue [functions.Preserves holds] :
    (term : PlanTerm) → (value : TermId) → Keeps holds (term.matchValue functions value)
  | .slot number, value => by
      unfold matchValue
      refine .bind (BindM.keeps_slotValue number) fun present => ?_
      cases present with
      | some present => exact .pure
      | none => exact .bind (.modify fun _ => rfl) fun _ => .pure
  | .const _, _ => by
      unfold matchValue
      exact .pure
  | .ctor _ args, value => by
      unfold matchValue
      refine .get_bind fun bindings => ?_
      split
      · exact .ite (keeps_matchList args _) .pure
      · exact .pure
  | .call function args, _ => by
      unfold matchValue
      exact .bind (keeps_eval functions (.call function args)) fun _ => .pure

theorem keeps_matchList [functions.Preserves holds] :
    (args : List PlanTerm) → (values : List TermId) → Keeps holds (matchList functions args values)
  | term :: args, value :: values => by
      unfold matchList
      exact .bind (keeps_matchValue term value) fun _ =>
        .ite (keeps_matchList args values) .pure
  | [], _ | _ :: _, [] => by
      unfold matchList
      exact .pure

end

end PlanTerm

theorem keeps_matchColumns [functions.Preserves holds] (checkBound : Bool) (args : List PlanTerm)
    (pattern : Pattern) (tuple : Tuple) :
    Keeps holds (matchColumns functions checkBound args pattern tuple) := by
  induction args generalizing pattern tuple with
  | nil => exact .pure
  | cons arg args ih =>
      cases pattern with
      | nil => exact .pure
      | cons binding pattern =>
          cases tuple with
          | nil => exact .pure
          | cons value tuple =>
              unfold matchColumns
              refine .bind (.ite .pure (PlanTerm.keeps_matchValue functions arg value)) ?_
              exact fun _ => .ite (ih pattern tuple) .pure

mutual

theorem Term.keeps_normalize [functions.Preserves holds] :
    (term : Term) → Keeps holds (term.normalize functions)
  | .var _ => by
      unfold normalize
      exact .throw
  | .bool _ | .int _ | .str _ => by
      unfold normalize
      exact functions.keeps_internTerm _
  | .ctor _ args => by
      unfold normalize
      exact .bind (Term.keeps_normalizeList args) fun _ => functions.keeps_internTerm _
  | .call _ args => by
      unfold normalize
      exact .bind (Term.keeps_normalizeList args) fun _ => functions.keeps_call _ _

theorem Term.keeps_normalizeList [functions.Preserves holds] :
    (args : List Term) → Keeps holds (Term.normalizeList functions args)
  | [] => by
      unfold normalizeList
      exact .pure
  | term :: args => by
      unfold normalizeList
      exact .bind (Term.keeps_normalize term) fun _ =>
        .bind (Term.keeps_normalizeList args) fun _ => .pure

end

/-! ## Tasks -/

namespace TaskM

theorem keeps_ofBindM {α : Type} {computation : BindM α} (keeps : Keeps holds computation) :
    Keeps holds (TaskM.ofBindM computation) := by
  intro state held
  have kept := keeps { terms := state.workspace.terms, substitution := state.substitution } held
  unfold Leaves at kept ⊢
  unfold TaskM.ofBindM
  split at kept <;> simp_all [terms]

theorem keeps_updateWorkspace {α : Type} {update : Workspace → α × Workspace}
    (unchanged : ∀ workspace, (update workspace).2.terms = workspace.terms) :
    Keeps holds (TaskM.updateWorkspace update) :=
  .modifyGet fun state => unchanged state.workspace

theorem keeps_spawn (task : Task) : Keeps holds (TaskM.spawn task) :=
  .modify fun _ => rfl

theorem keeps_undoing {step : TaskM Unit} (keeps : Keeps holds step) :
    Keeps holds (TaskM.undoing step) :=
  .get_bind fun _ => .bind keeps fun _ => .modify fun _ => rfl

end TaskM

theorem Workspace.terms_collect (workspace : Workspace) (symbol : RelationSymbol) (tuple : Tuple) :
    (workspace.collect symbol tuple).2.terms = workspace.terms := by
  unfold collect
  split <;> rfl

namespace TaskContext

variable (context : TaskContext) [context.functions.Preserves holds]

theorem keeps_lookup (atom : PlanAtom) : Keeps holds (context.lookup atom) :=
  .bind (TaskM.keeps_ofBindM (PlanTerm.keeps_evalList _ _)) fun _ => .get_bind fun _ => .pure

theorem keeps_filter (literal : PlanLiteral) : Keeps holds (context.filter literal) := by
  cases literal with
  | unify source pattern =>
      refine TaskM.keeps_ofBindM (.bind (PlanTerm.keeps_eval _ _) fun _ => ?_)
      exact PlanTerm.keeps_matchValue _ _ _
  | disunify lhs rhs =>
      exact TaskM.keeps_ofBindM (.bind (PlanTerm.keeps_eval _ _) fun _ =>
        .bind (PlanTerm.keeps_eval _ _) fun _ => .pure)
  | absent atom => exact .bind (context.keeps_lookup atom) fun _ => .pure
  | scan atom => exact .throw

theorem keeps_filterAll (literals : List PlanLiteral) : Keeps holds (context.filterAll literals) := by
  induction literals with
  | nil => exact .pure
  | cons literal literals ih =>
      exact .bind (context.keeps_filter literal) fun _ => .ite ih .pure

theorem keeps_triggerRules (symbol : RelationSymbol) (tuple : Tuple) (rules : List RulePlan) :
    Keeps holds (triggerRules symbol tuple rules) := by
  induction rules with
  | nil => exact .pure
  | cons rule rules ih =>
      unfold triggerRules
      split
      · exact .bind (TaskM.keeps_spawn _) fun _ => ih
      · exact ih

omit [context.functions.Preserves holds] in
theorem keeps_record (symbol : RelationSymbol) (tuple : Tuple) :
    Keeps holds (context.record symbol tuple) := by
  have counting : Keeps holds (TaskM.updateWorkspace fun workspace => ((), workspace.countDerived)) :=
    TaskM.keeps_updateWorkspace fun _ => rfl
  unfold record
  split
  · refine .bind (TaskM.keeps_updateWorkspace fun workspace =>
      workspace.terms_collect symbol tuple) fun isNew => ?_
    exact .ite counting .pure
  · refine .bind (TaskM.keeps_updateWorkspace fun _ => rfl) fun isNew => ?_
    exact .ite (.bind counting fun _ => keeps_triggerRules _ _ _) .pure

theorem keeps_report (plan : RulePlan) : Keeps holds (context.report plan) :=
  .bind (TaskM.keeps_ofBindM (PlanTerm.keeps_evalList _ _)) fun tuple =>
    context.keeps_record plan.headSymbol tuple

theorem keeps_scanTuples (atom : PlanAtom) {continuation : TaskM Unit}
    (keeps : Keeps holds continuation) (tuples : List Tuple) :
    Keeps holds (context.scanTuples atom continuation tuples) := by
  induction tuples with
  | nil => exact .pure
  | cons tuple tuples ih =>
      refine .bind (TaskM.keeps_undoing ?_) fun _ => ih
      refine .bind (TaskM.keeps_ofBindM (keeps_matchColumns _ _ _ _ _)) fun isMatch => ?_
      exact .ite keeps .pure

theorem keeps_scanRange (atom : PlanAtom) {continuation : TaskM Unit}
    (keeps : Keeps holds continuation) (chunks : Nat) (keys : KeyRange) :
    Keeps holds (context.scanRange atom continuation chunks keys) := by
  induction chunks generalizing keys with
  | zero => exact .pure
  | succ chunks ih =>
      refine .get_bind fun state => ?_
      refine .bind (context.keeps_scanTuples atom keeps _) fun _ => ?_
      split
      · exact .pure
      · exact ih _

theorem keeps_scanView (atom : PlanAtom) {continuation : TaskM Unit}
    (keeps : Keeps holds continuation) (view : View) :
    Keeps holds (context.scanView atom continuation view) := by
  cases view with
  | array tuples => exact context.keeps_scanTuples atom keeps tuples
  | range keys count => exact context.keeps_scanRange atom keeps _ keys

theorem keeps_evalBody (plan : RulePlan) (body : List PlanLiteral) :
    Keeps holds (context.evalBody plan body) := by
  induction body with
  | nil => exact context.keeps_report plan
  | cons literal body ih =>
      cases literal with
      | scan atom =>
          exact .bind (context.keeps_lookup atom) fun view => context.keeps_scanView atom ih view
      | unify | disunify | absent =>
          exact TaskM.keeps_undoing (.bind (context.keeps_filter _) fun _ => .ite ih .pure)

theorem keeps_scannedAtom (plan : RulePlan) (position : Nat) :
    Keeps holds (scannedAtom plan position) := by
  unfold scannedAtom
  split
  · exact .pure
  · exact .throw

theorem keeps_setSubstitution (substitution : Substitution) :
    Keeps holds (TaskM.setSubstitution substitution) :=
  .modify fun _ => rfl

theorem keeps_evaluate (plan : RulePlan) : Keeps holds (context.evaluate plan) := by
  refine .bind (keeps_setSubstitution _) fun _ => ?_
  split
  · exact context.keeps_evalBody plan plan.body
  · refine .bind (context.keeps_filterAll _) fun _ => .ite ?_ .pure
    refine .bind (keeps_scannedAtom _ _) fun atom => .bind (context.keeps_lookup atom) fun _ => ?_
    exact .get_bind fun _ => TaskM.keeps_spawn _

omit [context.functions.Preserves holds] in
theorem keeps_partsOf (atom : PlanAtom) (view : View) : Keeps holds (context.partsOf atom view) :=
  .ite (TaskM.keeps_updateWorkspace fun _ => rfl) .pure

theorem keeps_scanParts (plan : RulePlan) (position : Nat) (substitution : Substitution)
    (atom : PlanAtom) (view : View) (parts : Option (View × View)) :
    Keeps holds (context.scanParts plan position substitution atom view parts) := by
  unfold scanParts
  split
  · exact .bind (TaskM.keeps_spawn _) fun _ => TaskM.keeps_spawn _
  · exact .bind (keeps_setSubstitution _) fun _ =>
      context.keeps_scanView atom (context.keeps_evalBody _ _) view

theorem keeps_scan (plan : RulePlan) (position : Nat) (substitution : Substitution)
    (view : View) : Keeps holds (context.scan plan position substitution view) :=
  .bind (keeps_scannedAtom _ _) fun atom =>
    .bind (context.keeps_partsOf atom view) fun parts =>
      context.keeps_scanParts plan position substitution atom view parts

theorem keeps_trigger (plan : RulePlan) (tuple : Tuple) : Keeps holds (context.trigger plan tuple) := by
  unfold trigger
  split
  · exact .pure
  · refine .bind (keeps_setSubstitution _) fun _ => ?_
    refine .bind (context.keeps_filterAll _) fun _ => .ite ?_ .pure
    refine .bind (keeps_scannedAtom _ _) fun atom => ?_
    refine .bind (TaskM.keeps_ofBindM (keeps_matchColumns _ _ _ _ _)) fun isMatch => ?_
    exact .ite (context.keeps_evalBody _ _) .pure

theorem keeps_loadFact (fact : Fact) : Keeps holds (context.loadFact fact) := by
  intro store held
  have kept := Term.keeps_normalizeList context.functions fact.args store held
  unfold Leaves at kept ⊢
  unfold loadFact
  split at kept <;> simp_all

theorem keeps_load (symbol : RelationSymbol) (facts : List (List Term)) :
    Keeps holds (context.load symbol facts) := by
  induction facts with
  | nil => exact .pure
  | cons args facts ih =>
      refine .bind (TaskM.keeps_ofBindM (BindM.keeps_ofTermM (context.keeps_loadFact _))) ?_
      refine fun tuple => .bind ?_ fun _ => ih
      exact TaskM.keeps_updateWorkspace fun _ => rfl

theorem keeps_steps (task : Task) : Keeps holds (context.steps task) := by
  cases task with
  | load symbol facts => exact context.keeps_load symbol facts
  | evaluate plan => exact context.keeps_evaluate plan
  | scan plan position substitution view => exact context.keeps_scan plan position substitution view
  | trigger plan tuple => exact context.keeps_trigger plan tuple

variable {context}

/-- A task ends or fails as its steps do, with the stores and the spawned tasks that they leave. -/
theorem exists_ran {task : Task} {workspace : Workspace} {done : TaskState → Prop}
    {stopped : TaskError → TaskState → Prop}
    (leaves : Leaves (context.steps task) { workspace, substitution := .unbound 0 }
      (fun _ later => done later) stopped) :
    ∃ later : TaskState, later.workspace = (context.run task workspace).state ∧
      later.spawned = (context.run task workspace).spawned ∧
        ((context.run task workspace).outcome = .ok () ∧ done later ∨
          ∃ failure, (context.run task workspace).outcome = .error failure ∧
            stopped failure later) := by
  unfold Leaves at leaves
  unfold run
  split at leaves
  · next value later outcome =>
      rw [outcome]
      exact ⟨later, rfl, rfl, .inl ⟨rfl, leaves⟩⟩
  · next failure later outcome =>
      rw [outcome]
      exact ⟨later, rfl, rfl, .inr ⟨failure, rfl, leaves⟩⟩

/-- What the steps of a task leave behind in any case. -/
theorem exists_ran_of_kept {task : Task} {workspace : Workspace} {kept : TaskState → Prop}
    (leaves : Leaves (context.steps task) { workspace, substitution := .unbound 0 }
      (fun _ later => kept later) fun _ later => kept later) :
    ∃ later : TaskState, later.workspace = (context.run task workspace).state ∧
      later.spawned = (context.run task workspace).spawned ∧ kept later := by
  obtain ⟨later, stateEq, spawnedEq, ⟨-, isKept⟩ | ⟨-, -, isKept⟩⟩ := exists_ran leaves
  · exact ⟨later, stateEq, spawnedEq, isKept⟩
  · exact ⟨later, stateEq, spawnedEq, isKept⟩

variable (context)

theorem keeps_run {task : Task} {workspace : Workspace} (held : holds workspace.terms) :
    holds (context.run task workspace).state.terms := by
  obtain ⟨later, stateEq, -, kept⟩ := exists_ran_of_kept
    (context.keeps_steps task { workspace, substitution := .unbound 0 } held)
  rw [← stateEq]
  exact kept

theorem extends_run (task : Task) (workspace : Workspace) :
    (context.run task workspace).state.terms.Extends workspace.terms :=
  @keeps_run (fun store => store.Extends workspace.terms) context _ task workspace (.refl _)

end TaskContext

/-! ## All terms are kept -/

theorem BindM.interns_ofTermM {α : Type} {computation : TermM α} (interns : Interns computation) :
    Interns (BindM.ofTermM computation) :=
  interns_iff_keeps.mpr fun earlier => keeps_ofTermM (interns_iff_keeps.mp interns earlier)

namespace PlanTerm

theorem interns_eval (term : PlanTerm) : Interns (term.eval functions) :=
  interns_iff_keeps.mpr fun _ => keeps_eval functions term

theorem interns_evalList (args : List PlanTerm) : Interns (evalList functions args) :=
  interns_iff_keeps.mpr fun _ => keeps_evalList functions args

theorem interns_matchValue (term : PlanTerm) (value : TermId) :
    Interns (term.matchValue functions value) :=
  interns_iff_keeps.mpr fun _ => keeps_matchValue functions term value

theorem interns_matchList (args : List PlanTerm) (values : List TermId) :
    Interns (matchList functions args values) :=
  interns_iff_keeps.mpr fun _ => keeps_matchList functions args values

end PlanTerm

theorem interns_matchColumns (checkBound : Bool) (args : List PlanTerm) (pattern : Pattern)
    (tuple : Tuple) : Interns (matchColumns functions checkBound args pattern tuple) :=
  interns_iff_keeps.mpr fun _ => keeps_matchColumns functions checkBound args pattern tuple

theorem Term.interns_normalize (term : Term) : Interns (term.normalize functions) :=
  interns_iff_keeps.mpr fun _ => Term.keeps_normalize functions term

theorem Term.interns_normalizeList (args : List Term) : Interns (Term.normalizeList functions args) :=
  interns_iff_keeps.mpr fun _ => Term.keeps_normalizeList functions args

namespace TaskM

theorem interns_ofBindM {α : Type} {computation : BindM α} (interns : Interns computation) :
    Interns (TaskM.ofBindM computation) :=
  interns_iff_keeps.mpr fun earlier => keeps_ofBindM (interns_iff_keeps.mp interns earlier)

theorem interns_updateWorkspace {α : Type} {update : Workspace → α × Workspace}
    (unchanged : ∀ workspace, (update workspace).2.terms = workspace.terms) :
    Interns (TaskM.updateWorkspace update) :=
  interns_iff_keeps.mpr fun _ => keeps_updateWorkspace unchanged

theorem interns_spawn (task : Task) : Interns (TaskM.spawn task) :=
  interns_iff_keeps.mpr fun _ => keeps_spawn task

end TaskM

namespace TaskContext

variable (context : TaskContext)

theorem interns_lookup (atom : PlanAtom) : Interns (context.lookup atom) :=
  interns_iff_keeps.mpr fun _ => context.keeps_lookup atom

theorem interns_filterAll (literals : List PlanLiteral) : Interns (context.filterAll literals) :=
  interns_iff_keeps.mpr fun _ => context.keeps_filterAll literals

theorem interns_record (symbol : RelationSymbol) (tuple : Tuple) :
    Interns (context.record symbol tuple) :=
  interns_iff_keeps.mpr fun _ => context.keeps_record symbol tuple

theorem interns_scanTuples (atom : PlanAtom) {continuation : TaskM Unit}
    (interns : Interns continuation) (tuples : List Tuple) :
    Interns (context.scanTuples atom continuation tuples) :=
  interns_iff_keeps.mpr fun earlier =>
    context.keeps_scanTuples atom (interns_iff_keeps.mp interns earlier) tuples

theorem interns_scanRange (atom : PlanAtom) {continuation : TaskM Unit}
    (interns : Interns continuation) (chunks : Nat) (keys : KeyRange) :
    Interns (context.scanRange atom continuation chunks keys) :=
  interns_iff_keeps.mpr fun earlier =>
    context.keeps_scanRange atom (interns_iff_keeps.mp interns earlier) chunks keys

theorem interns_scanView (atom : PlanAtom) {continuation : TaskM Unit}
    (interns : Interns continuation) (view : View) :
    Interns (context.scanView atom continuation view) :=
  interns_iff_keeps.mpr fun earlier =>
    context.keeps_scanView atom (interns_iff_keeps.mp interns earlier) view

theorem interns_evalBody (plan : RulePlan) (body : List PlanLiteral) :
    Interns (context.evalBody plan body) :=
  interns_iff_keeps.mpr fun _ => context.keeps_evalBody plan body

theorem interns_scannedAtom (plan : RulePlan) (position : Nat) :
    Interns (scannedAtom plan position) :=
  interns_iff_keeps.mpr fun _ => keeps_scannedAtom plan position

theorem interns_partsOf (atom : PlanAtom) (view : View) : Interns (context.partsOf atom view) :=
  interns_iff_keeps.mpr fun _ => context.keeps_partsOf atom view

theorem interns_scanParts (plan : RulePlan) (position : Nat) (substitution : Substitution)
    (atom : PlanAtom) (view : View) (parts : Option (View × View)) :
    Interns (context.scanParts plan position substitution atom view parts) :=
  interns_iff_keeps.mpr fun _ =>
    context.keeps_scanParts plan position substitution atom view parts

theorem interns_loadFact (fact : Fact) : Interns (context.loadFact fact) :=
  interns_iff_keeps.mpr fun _ => context.keeps_loadFact fact

theorem interns_load (symbol : RelationSymbol) (facts : List (List Term)) :
    Interns (context.load symbol facts) :=
  interns_iff_keeps.mpr fun _ => context.keeps_load symbol facts

end TaskContext

end Datalog
