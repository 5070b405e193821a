import Datalog.Proofs.Evaluation.Confinement
import Datalog.Proofs.Evaluation.Extension
import Mathlib.Logic.Relation

/-!
# The scope of a binding

The trail of a substitution lists the bound slots, each once.  A match only adds bindings, so undoing
the bindings since a checkpoint gives back the substitution of the checkpoint, and a body or a scan that
ends has undone whatever it bound, at every level of the nested loop.  Hence every tuple of a scan is
matched with the bindings that the scan was entered with.

To speak of what holds while a task runs, the steps that a step calls are described by a relation
between places: a place is a step with its arguments, and it is reached in a state.
-/

namespace Datalog

/-! ## Trails -/

/-- The trail lists the bound slots, each once. -/
structure Substitution.Tidy (substitution : Substitution) : Prop where
  nodup : substitution.trail.Nodup
  mem_trail_iff : ∀ slot : Nat,
    slot ∈ substitution.trail ↔ ∃ value, substitution.slots[slot]? = some (some value)

namespace Substitution

variable {later substitution : Substitution}

theorem tidy_unbound (count : Nat) : (unbound count).Tidy := by
  refine ⟨List.nodup_nil, fun slot => ?_⟩
  simp [unbound, List.getElem?_replicate]

theorem Tidy.bind (tidy : substitution.Tidy) {slot : Nat}
    (unbound : substitution.slots[slot]? = some none) (value : TermId) :
    (substitution.bind slot value).Tidy := by
  have absent : slot ∉ substitution.trail := by
    rw [tidy.mem_trail_iff, unbound]
    simp
  constructor
  · exact List.nodup_append.mpr ⟨tidy.nodup, List.nodup_singleton slot, by
      rintro first member _ here rfl
      rw [List.mem_singleton.mp here] at member
      exact absent member⟩
  · intro other
    have inside := (List.getElem?_eq_some_iff.mp unbound).1
    by_cases same : slot = other
    · subst same
      simp [Substitution.bind, inside]
    · simp [Substitution.bind, List.getElem?_set_ne same, tidy.mem_trail_iff, Ne.symm same]

theorem Extends.tidy (extended : later.Extends substitution) (tidy : substitution.Tidy) :
    later.Tidy := by
  induction extended with
  | refl => exact tidy
  | bind _ unbound value ih => exact (ih tidy).bind unbound value

theorem Extends.of_eq (same : later = substitution) : later.Extends substitution :=
  same ▸ .refl later

end Substitution

/-- The columns of a tuple bind unbound slots, also if one of them does not match in the end. -/
theorem matchColumns_extends {functions : Registry} (checkBound : Bool) (args : List PlanTerm)
    (pattern : Pattern) (tuple : Tuple) (bindings : Bindings) :
    Leaves (matchColumns functions checkBound args pattern tuple) bindings
      (fun _ later => later.substitution.Extends bindings.substitution)
      fun _ later => later.substitution.Extends bindings.substitution := by
  induction args generalizing pattern tuple bindings with
  | nil =>
      rw [matchColumns]
      · exact .refl _
      · simp
  | cons arg args ih =>
      cases pattern with
      | nil =>
          rw [matchColumns]
          · exact .refl _
          · simp
      | cons binding pattern => cases tuple with
        | nil =>
            rw [matchColumns]
            · exact .refl _
            · simp
        | cons value tuple =>
            rw [matchColumns]
            have column : Leaves
                (if binding = .ignored || (binding = .bound && !checkBound) then pure true
                  else arg.matchValue functions value) bindings
                (fun _ later => later.substitution.Extends bindings.substitution)
                fun _ later => later.substitution.Extends bindings.substitution := by
              split
              · exact .refl _
              · exact (PlanTerm.matchValue_within arg value bindings).mono
                  (fun _ _ within => within.extended) fun _ _ within => within.extended
            refine column.bind fun isMatch middle extended => ?_
            split
            · exact (ih pattern tuple middle).mono (fun _ _ extended' => extended'.trans extended)
                fun _ _ extended' => extended'.trans extended
            · exact extended

/-! ## Steps that bind and steps that undo -/

/-- The substitution that a task goes on with. -/
def Task.Tidy : Task → Prop
  | .scan _ _ substitution _ => substitution.Tidy
  | .load .. | .evaluate _ | .trigger .. => True

namespace TaskState

/-- Unbound slots may have been bound, and tidy tasks may have been spawned. -/
structure Follows (later state : TaskState) : Prop where
  extended : later.substitution.Extends state.substitution
  spawned : ∀ task ∈ later.spawned, task ∈ state.spawned ∨ task.Tidy

/-- A tidy substitution, and tidy tasks that may have been spawned. -/
structure TidyAfter (later state : TaskState) : Prop where
  substitution : later.substitution.Tidy
  spawned : ∀ task ∈ later.spawned, task ∈ state.spawned ∨ task.Tidy

variable {first second third : TaskState}

theorem Follows.refl (state : TaskState) : state.Follows state :=
  ⟨.refl _, fun _ member => .inl member⟩

theorem Follows.trans (right : third.Follows second) (left : second.Follows first) :
    third.Follows first :=
  ⟨right.extended.trans left.extended, fun task member =>
    (right.spawned task member).elim (left.spawned task) .inr⟩

theorem TidyAfter.trans (right : third.TidyAfter second) (left : second.TidyAfter first) :
    third.TidyAfter first :=
  ⟨right.substitution, fun task member => (right.spawned task member).elim (left.spawned task) .inr⟩

theorem Follows.tidyAfter (follows : second.Follows first) (tidy : first.substitution.Tidy) :
    second.TidyAfter first :=
  ⟨follows.extended.tidy tidy, follows.spawned⟩

end TaskState

/-- A step only adds bindings. -/
def Advances {α : Type} (step : TaskM α) : Prop :=
  ∀ state, Leaves step state (fun _ later => later.Follows state) fun _ later => later.Follows state

/-- A step that ends has undone its bindings, and one that stops has only added some. -/
def Restores {α : Type} (step : TaskM α) : Prop :=
  ∀ state, Leaves step state
    (fun _ later => later.Follows state ∧ later.substitution = state.substitution)
    fun _ later => later.Follows state

namespace Advances

variable {α β : Type}

theorem pure {value : α} : Advances (pure value : TaskM α) :=
  fun state => .refl state

theorem throw {error : TaskError} : Advances (throw error : TaskM α) :=
  fun state => .refl state

theorem bind {first : TaskM α} {next : α → TaskM β} (advances : Advances first)
    (nextAdvances : ∀ value, Advances (next value)) : Advances (first >>= next) := by
  refine fun state => (advances state).bind fun value middle follows => ?_
  exact (nextAdvances value middle).mono (fun _ _ follows' => follows'.trans follows)
    fun _ _ follows' => follows'.trans follows

theorem ite {condition : Prop} [Decidable condition] {first second : TaskM α}
    (advances : Advances first) (advances' : Advances second) :
    Advances (if condition then first else second) := by
  split
  · exact advances
  · exact advances'

theorem ofBindM {computation : BindM α}
    (extends' : ∀ bindings, Leaves computation bindings
      (fun _ later => later.substitution.Extends bindings.substitution)
      fun _ later => later.substitution.Extends bindings.substitution) :
    Advances (TaskM.ofBindM computation) := by
  refine fun state => (TaskM.leaves_ofBindM (extends' state.bindings)).mono ?_ ?_
  · rintro _ _ ⟨bindings, rfl, extended⟩
    exact ⟨extended, fun _ member => .inl member⟩
  · rintro _ _ ⟨bindings, rfl, extended⟩
    exact ⟨extended, fun _ member => .inl member⟩

end Advances

namespace Restores

variable {α β : Type}

theorem advances {step : TaskM α} (restores : Restores step) : Advances step :=
  fun state => (restores state).imp_done fun _ _ both => both.1

theorem pure {value : α} : Restores (pure value : TaskM α) :=
  fun state => ⟨.refl state, rfl⟩

theorem throw {error : TaskError} : Restores (throw error : TaskM α) :=
  fun state => .refl state

theorem bind {first : TaskM α} {next : α → TaskM β} (restores : Restores first)
    (nextRestores : ∀ value, Restores (next value)) : Restores (first >>= next) := by
  refine fun state => (restores state).bind ?_
  rintro value middle ⟨follows, same⟩
  exact (nextRestores value middle).mono
    (fun _ _ both => ⟨both.1.trans follows, both.2.trans same⟩)
    fun _ _ follows' => follows'.trans follows

theorem get_bind {next : TaskState → TaskM β} (nextRestores : ∀ state, Restores (next state)) :
    Restores (get >>= next) :=
  .bind (fun state => ⟨.refl state, rfl⟩) nextRestores

theorem ite {condition : Prop} [Decidable condition] {first second : TaskM α}
    (restores : Restores first) (restores' : Restores second) :
    Restores (if condition then first else second) := by
  split
  · exact restores
  · exact restores'

theorem ofBindM {computation : BindM α}
    (keeps : ∀ bindings, Leaves computation bindings
      (fun _ later => later.substitution = bindings.substitution)
      fun _ later => later.substitution = bindings.substitution) :
    Restores (TaskM.ofBindM computation) := by
  refine fun state => (TaskM.leaves_ofBindM (keeps state.bindings)).mono ?_ ?_
  · rintro _ _ ⟨bindings, rfl, same⟩
    exact ⟨⟨.of_eq same, fun _ member => .inl member⟩, same⟩
  · rintro _ _ ⟨bindings, rfl, same⟩
    exact ⟨.of_eq same, fun _ member => .inl member⟩

theorem updateWorkspace {update : Workspace → α × Workspace} :
    Restores (TaskM.updateWorkspace update) :=
  fun state => ⟨⟨.refl state.substitution, fun _ member => .inl member⟩, rfl⟩

theorem spawn {task : Task} (tidy : task.Tidy) : Restores (TaskM.spawn task) := by
  refine fun state => ⟨⟨.refl state.substitution, fun other member => ?_⟩, rfl⟩
  rcases List.mem_append.mp member with before | here
  · exact .inl before
  · exact .inr (List.mem_singleton.mp here ▸ tidy)

/-- Whatever a step has bound since the checkpoint is undone. -/
theorem undoing {step : TaskM Unit} (advances : Advances step) : Restores (TaskM.undoing step) := by
  intro state
  unfold TaskM.undoing
  rw [leaves_bind, leaves_get]
  refine (advances state).bind fun _ later follows => ?_
  have restored : later.substitution.rollback state.substitution.checkpoint = state.substitution :=
    follows.extended.rollback_eq
  exact ⟨⟨.of_eq restored, follows.spawned⟩, restored⟩

end Restores

namespace TaskContext

variable {context : TaskContext}

theorem evalList_restores (terms : List PlanTerm) :
    Restores (TaskM.ofBindM (PlanTerm.evalList context.functions terms)) :=
  .ofBindM (PlanTerm.evalList_keeps terms)

theorem lookup_restores (atom : PlanAtom) : Restores (context.lookup atom) :=
  .bind (evalList_restores _) fun _ => .get_bind fun _ => .pure

theorem filter_advances : (literal : PlanLiteral) → Advances (context.filter literal)
  | .unify source pattern => by
      refine .ofBindM fun bindings => ?_
      refine ((PlanTerm.eval_keeps source bindings).imp_stopped fun _ _ same => .of_eq same).bind ?_
      intro value middle same
      exact same ▸ (PlanTerm.matchValue_within pattern value middle).mono
        (fun _ _ within => within.extended) fun _ _ within => within.extended
  | .disunify lhs rhs => by
      refine Restores.advances (.ofBindM fun bindings => ?_)
      refine (PlanTerm.eval_keeps lhs bindings).bind fun left middle same => ?_
      refine Leaves.bind (same ▸ PlanTerm.eval_keeps rhs middle) fun right later same' => ?_
      exact same'
  | .absent atom => (lookup_restores atom).advances.bind fun _ => .pure
  | .scan _ => .throw

theorem filterAll_advances (literals : List PlanLiteral) : Advances (context.filterAll literals) := by
  induction literals with
  | nil => exact .pure
  | cons literal literals ih => exact (filter_advances literal).bind fun _ => .ite ih .pure

theorem matchColumns_advances (checkBound : Bool) (args : List PlanTerm) (pattern : Pattern)
    (tuple : Tuple) :
    Advances (TaskM.ofBindM (matchColumns context.functions checkBound args pattern tuple)) :=
  .ofBindM (matchColumns_extends checkBound args pattern tuple)

theorem triggerRules_restores (symbol : RelationSymbol) (tuple : Tuple) (rules : List RulePlan) :
    Restores (triggerRules symbol tuple rules) := by
  induction rules with
  | nil => exact .pure
  | cons rule rules ih =>
      unfold triggerRules
      split
      · exact .bind (.spawn trivial) fun _ => ih
      · exact ih

theorem record_restores (symbol : RelationSymbol) (tuple : Tuple) :
    Restores (context.record symbol tuple) := by
  unfold record
  split
  · exact .bind .updateWorkspace fun _ => .ite .updateWorkspace .pure
  · exact .bind .updateWorkspace fun _ =>
      .ite (.bind .updateWorkspace fun _ => triggerRules_restores symbol tuple _) .pure

theorem report_restores (plan : RulePlan) : Restores (context.report plan) :=
  .bind (evalList_restores _) fun tuple => record_restores _ tuple

section Scans

variable {atom : PlanAtom} {continuation : TaskM Unit} (restores : Restores continuation)

include restores

/-- Each tuple is matched and its bindings are undone before the next one is. -/
theorem scanTuples_restores (tuples : List Tuple) :
    Restores (context.scanTuples atom continuation tuples) := by
  induction tuples with
  | nil => exact .pure
  | cons tuple tuples ih =>
      exact .bind (.undoing ((matchColumns_advances false _ _ tuple).bind fun _ =>
        .ite restores.advances .pure)) fun _ => ih

theorem scanRange_restores (chunks : Nat) (keys : KeyRange) :
    Restores (context.scanRange atom continuation chunks keys) := by
  induction chunks generalizing keys with
  | zero => exact .pure
  | succ chunks ih =>
      refine .get_bind fun state => .bind (scanTuples_restores restores _) fun _ => ?_
      split
      · exact .pure
      · exact ih _

theorem scanView_restores (view : View) : Restores (context.scanView atom continuation view) := by
  cases view with
  | array tuples => exact scanTuples_restores restores tuples
  | range keys count => exact scanRange_restores restores _ keys

end Scans

/-- The rest of a body undoes its bindings at every level of the nested loop. -/
theorem evalBody_restores (plan : RulePlan) (body : List PlanLiteral) :
    Restores (context.evalBody plan body) := by
  induction body with
  | nil => exact report_restores plan
  | cons literal body ih =>
      cases literal with
      | scan atom => exact .bind (lookup_restores atom) fun view => scanView_restores ih view
      | unify | disunify | absent =>
          exact .undoing ((filter_advances _).bind fun _ => .ite ih.advances .pure)

end TaskContext

/-! ## Tasks -/

/-- A step leaves a tidy substitution behind and spawns tidy tasks. -/
def Tidies {α : Type} (step : TaskM α) : Prop :=
  ∀ state : TaskState, state.substitution.Tidy →
    Leaves step state (fun _ later => later.TidyAfter state) fun _ later => later.TidyAfter state

namespace Tidies

variable {α β : Type}

theorem of_advances {step : TaskM α} (advances : Advances step) : Tidies step :=
  fun state tidy => (advances state).mono (fun _ _ follows => follows.tidyAfter tidy)
    fun _ _ follows => follows.tidyAfter tidy

theorem pure {value : α} : Tidies (pure value : TaskM α) :=
  .of_advances .pure

theorem bind {first : TaskM α} {next : α → TaskM β} (tidies : Tidies first)
    (nextTidies : ∀ value, Tidies (next value)) : Tidies (first >>= next) := by
  refine fun state tidy => (tidies state tidy).bind fun value middle after => ?_
  exact (nextTidies value middle after.substitution).mono (fun _ _ after' => after'.trans after)
    fun _ _ after' => after'.trans after

theorem ite {condition : Prop} [Decidable condition] {first second : TaskM α}
    (tidies : Tidies first) (tidies' : Tidies second) :
    Tidies (if condition then first else second) := by
  split
  · exact tidies
  · exact tidies'

theorem setSubstitution {substitution : Substitution} (tidy : substitution.Tidy) :
    Tidies (TaskM.setSubstitution substitution) :=
  fun _ _ => ⟨tidy, fun _ member => .inl member⟩

end Tidies

namespace TaskContext

variable {context : TaskContext}

theorem scannedAtom_restores (plan : RulePlan) (position : Nat) :
    Restores (scannedAtom plan position) := by
  unfold scannedAtom
  split
  · exact .pure
  · exact .throw

theorem partsOf_restores (atom : PlanAtom) (view : View) : Restores (context.partsOf atom view) :=
  .ite .updateWorkspace .pure

theorem load_restores (symbol : RelationSymbol) (facts : List (List Term)) :
    Restores (context.load symbol facts) := by
  induction facts with
  | nil => exact .pure
  | cons args facts ih =>
      exact .bind (.ofBindM fun _ => PlanTerm.ofTermM_keeps _) fun _ =>
        .bind .updateWorkspace fun _ => ih

theorem evaluate_tidies (plan : RulePlan) : Tidies (context.evaluate plan) := by
  unfold evaluate
  refine .bind (.setSubstitution (Substitution.tidy_unbound _)) fun _ => ?_
  split
  · exact .of_advances (evalBody_restores plan plan.body).advances
  · next position _ =>
      refine .bind (.of_advances (filterAll_advances _)) fun _ => .ite ?_ .pure
      refine .bind (.of_advances (scannedAtom_restores plan position).advances) fun atom => ?_
      refine .bind (.of_advances (lookup_restores atom).advances) fun view => ?_
      -- The task that goes through the tuples takes the bindings of the filters along.
      intro state tidy
      have tidyTask : (Task.scan plan position state.substitution view).Tidy := tidy
      exact Tidies.of_advances (Restores.spawn tidyTask).advances state tidy

theorem scan_tidies (plan : RulePlan) (position : Nat) {substitution : Substitution}
    (tidy : substitution.Tidy) (view : View) :
    Tidies (context.scan plan position substitution view) := by
  refine .bind (.of_advances (scannedAtom_restores plan position).advances) fun atom => ?_
  refine .bind (.of_advances (partsOf_restores atom view).advances) fun parts => ?_
  cases parts with
  | some both =>
      have tidyTask (part : View) : (Task.scan plan position substitution part).Tidy := tidy
      exact .of_advances
        (Restores.bind (.spawn (tidyTask both.1)) fun _ => .spawn (tidyTask both.2)).advances
  | none =>
      exact .bind (.setSubstitution tidy) fun _ =>
        .of_advances (scanView_restores (evalBody_restores plan _) view).advances

theorem trigger_tidies (plan : RulePlan) (tuple : Tuple) : Tidies (context.trigger plan tuple) := by
  unfold trigger
  split
  · exact .pure
  · next position _ =>
      refine .bind (.setSubstitution (Substitution.tidy_unbound _)) fun _ => ?_
      refine .bind (.of_advances (filterAll_advances _)) fun _ => .ite ?_ .pure
      refine .bind (.of_advances (scannedAtom_restores plan position).advances) fun atom => ?_
      exact .of_advances ((matchColumns_advances true _ _ tuple).bind fun _ =>
        .ite (evalBody_restores plan _).advances .pure)

theorem steps_tidies {task : Task} (tidy : task.Tidy) : Tidies (context.steps task) := by
  cases task with
  | load symbol facts => exact .of_advances (load_restores symbol facts).advances
  | evaluate plan => exact evaluate_tidies plan
  | scan plan position substitution view => exact scan_tidies plan position tidy view
  | trigger plan tuple => exact trigger_tidies plan tuple

/-- The tasks that a task leaves to others are tidy. -/
theorem run_spawned_tidy {task : Task} (tidy : task.Tidy) (workspace : Workspace) :
    ∀ other ∈ (context.run task workspace).spawned, other.Tidy := by
  have tidies : Tidies (context.steps task) := steps_tidies tidy
  obtain ⟨later, -, spawnedEq, after⟩ := exists_ran_of_kept
    (tidies { workspace, substitution := .unbound 0 } (Substitution.tidy_unbound 0))
  intro other member
  rw [← spawnedEq] at member
  exact (after.spawned other member).resolve_left (List.not_mem_nil)

end TaskContext

end Datalog
