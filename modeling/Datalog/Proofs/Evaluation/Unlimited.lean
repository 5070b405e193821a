import Datalog.Proofs.Evaluation.Steps
import Datalog.Proofs.Pool
import Datalog.Proofs.Store.Reading

/-!
# Stores without a limit

To decide whether a view is small, one tuple more than the limit is read.  With the greatest limit this
number wraps around to zero, and every lookup finds nothing.  Tasks that look something up in such
stores have nothing to go through, so nothing is collected.
-/

namespace Datalog

/-- Views are read without a limit. -/
def Workspace.Unlimited (workspace : Workspace) : Prop :=
  ¬ workspace.db.limits.Bounded ∧ ¬ workspace.delta.limits.Bounded

theorem FactStore.tuplesOf_of_not_bounded {store : FactStore} (notBounded : ¬ store.limits.Bounded)
    {symbol : RelationSymbol} : store.tuplesOf symbol = [] := by
  rw [tuplesOf, all, Index.all, Index.view_of_not_bounded notBounded]
  rfl

/-- A step changes terms and bindings only. -/
def BindsOnly {α : Type} (step : TaskM α) : Prop :=
  ∀ state, Leaves step state (fun _ later => ∃ bindings, later = state.withBindings bindings)
    fun _ later => ∃ bindings, later = state.withBindings bindings

namespace BindsOnly

variable {α β : Type}

theorem pure {value : α} : BindsOnly (pure value : TaskM α) :=
  fun state => ⟨state.bindings, rfl⟩

theorem throw {error : TaskError} : BindsOnly (throw error : TaskM α) :=
  fun state => ⟨state.bindings, rfl⟩

theorem ofBindM {computation : BindM α} : BindsOnly (TaskM.ofBindM computation) := by
  intro state
  have outcome : Leaves computation state.bindings (fun _ _ => True) fun _ _ => True := by
    unfold Leaves
    split <;> trivial
  exact (TaskM.leaves_ofBindM outcome).mono (fun _ _ done => done.imp fun _ same => same.1)
    fun _ _ stopped => stopped.imp fun _ same => same.1

theorem bind {first : TaskM α} {next : α → TaskM β} (binds : BindsOnly first)
    (nextBinds : ∀ value, BindsOnly (next value)) : BindsOnly (first >>= next) := by
  intro state
  refine (binds state).bind ?_
  rintro value _ ⟨bindings, rfl⟩
  refine (nextBinds value (state.withBindings bindings)).mono ?_ ?_
  · rintro _ _ ⟨later, rfl⟩
    exact ⟨later, rfl⟩
  · rintro _ _ ⟨later, rfl⟩
    exact ⟨later, rfl⟩

theorem andThen {first : TaskM α} {next : α → TaskM β} (binds : BindsOnly first)
    {state : TaskState} {done : β → TaskState → Prop} {stopped : TaskError → TaskState → Prop}
    (interrupted : ∀ error bindings, stopped error (state.withBindings bindings))
    (nextLeaves : ∀ value bindings,
      Leaves (next value) (state.withBindings bindings) done stopped) :
    Leaves (first >>= next) state done stopped := by
  refine Leaves.bind ((binds state).mono (fun _ _ done => done) ?_) ?_
  · rintro error _ ⟨bindings, rfl⟩
    exact interrupted error bindings
  · rintro value _ ⟨bindings, rfl⟩
    exact nextLeaves value bindings

end BindsOnly

namespace TaskContext

variable {context : TaskContext}

theorem bindsOnly_lookup (atom : PlanAtom) : BindsOnly (context.lookup atom) :=
  .bind .ofBindM fun _ state => ⟨state.bindings, rfl⟩

theorem bindsOnly_filter : (literal : PlanLiteral) → BindsOnly (context.filter literal)
  | .unify _ _ | .disunify _ _ => .ofBindM
  | .absent atom => .bind (bindsOnly_lookup atom) fun _ => .pure
  | .scan _ => .throw

theorem bindsOnly_filterAll (literals : List PlanLiteral) :
    BindsOnly (context.filterAll literals) := by
  induction literals with
  | nil => exact .pure
  | cons literal literals ih =>
      unfold filterAll
      refine .bind (bindsOnly_filter literal) fun success => ?_
      split
      · exact ih
      · exact .pure

theorem bindsOnly_scannedAtom (plan : RulePlan) (position : Nat) :
    BindsOnly (scannedAtom plan position) := by
  unfold scannedAtom
  split
  · exact .pure
  · exact .throw

/-- A lookup finds nothing. -/
theorem lookup_unlimited (rounds : context.strategy = .rounds) (atom : PlanAtom) {state : TaskState}
    (unlimited : state.workspace.Unlimited) :
    Leaves (context.lookup atom) state
      (fun view later => view = .array [] ∧ ∃ bindings, later = state.withBindings bindings)
      fun _ later => ∃ bindings, later = state.withBindings bindings := by
  refine Leaves.bind (BindsOnly.ofBindM state) ?_
  rintro key _ ⟨bindings, rfl⟩
  refine ⟨?_, bindings, rfl⟩
  have noLimit : ¬ (context.storeFor atom (state.withBindings bindings).workspace).limits.Bounded := by
    rw [storeFor_eq, rounds]
    cases atom.delta
    · exact unlimited.1
    · exact unlimited.2
  unfold FactStore.get
  split
  · exact Index.view_of_not_bounded noLimit
  · rfl

end TaskContext

/-! ## Tasks without tuples -/

/-- A task goes on with a rule, and no tuple is left to scan. -/
inductive Task.Barren : Task → Prop where
  | evaluate {plan : RulePlan} (scans : plan.firstScan?.isSome = true) : Barren (.evaluate plan)
  | scan {plan : RulePlan} {position : Nat} {substitution : Substitution} :
      Barren (.scan plan position substitution (.array []))

/-- The stores are as they were, and every task that was spawned has no tuple to scan. -/
structure TaskState.Unmoved (workspace : Workspace) (later : TaskState) : Prop where
  db_eq : later.workspace.db = workspace.db
  delta_eq : later.workspace.delta = workspace.delta
  nextDelta_eq : later.workspace.nextDelta = workspace.nextDelta
  spawned : ∀ task ∈ later.spawned, task.Barren

namespace TaskContext

variable {context : TaskContext}

/-- A task without tuples to scan changes no store. -/
theorem steps_unmoved (rounds : context.strategy = .rounds) {task : Task} (barren : task.Barren)
    {workspace : Workspace} (unlimited : workspace.Unlimited) (substitution : Substitution) :
    Leaves (context.steps task) { workspace, substitution }
      (fun _ later => later.Unmoved workspace) fun _ later => later.Unmoved workspace := by
  have unmoved : ∀ substitution bindings,
      (TaskState.withBindings { workspace, substitution } bindings).Unmoved workspace :=
    fun _ _ => ⟨rfl, rfl, rfl, by simp [TaskState.withBindings]⟩
  cases barren with
  | @evaluate plan scans =>
      obtain ⟨position, isFirst⟩ := Option.isSome_iff_exists.mp scans
      unfold steps evaluate
      rw [leaves_bind, TaskM.setSubstitution, leaves_modify]
      simp only [isFirst]
      refine (bindsOnly_filterAll _).andThen (fun _ => unmoved _) fun success bindings => ?_
      split
      · refine (bindsOnly_scannedAtom plan position).andThen (fun _ => unmoved _)
          fun atom bindings => ?_
        refine Leaves.bind ((lookup_unlimited rounds atom unlimited).mono
          (fun _ _ done => done) ?_) ?_
        · rintro _ _ ⟨bindings, rfl⟩
          exact unmoved _ bindings
        · rintro _ _ ⟨rfl, bindings, rfl⟩
          refine ⟨rfl, rfl, rfl, fun task member => ?_⟩
          obtain rfl := List.mem_singleton.mp member
          exact .scan
      · exact unmoved _ bindings
  | @scan plan position substitution =>
      unfold steps scan
      refine (bindsOnly_scannedAtom plan position).andThen (fun _ => unmoved _)
        fun atom bindings => ?_
      have noParts : context.partsOf atom (.array []) = pure none :=
        if_neg (Nat.not_lt_zero context.taskSize)
      rw [noParts]
      exact unmoved _ ⟨bindings.terms, substitution⟩

theorem exists_unmoved (rounds : context.strategy = .rounds) {task : Task} (barren : task.Barren)
    {workspace : Workspace} (unlimited : workspace.Unlimited) :
    ∃ later : TaskState, later.workspace = (context.run task workspace).state ∧
      later.spawned = (context.run task workspace).spawned ∧ later.Unmoved workspace := by
  exact exists_ran_of_kept (steps_unmoved rounds barren unlimited (.unbound 0))

/-- Tasks without tuples to scan change no store until they are done. -/
theorem nextDelta_drain_of_barren (rounds : context.strategy = .rounds) {order : Nat → Nat}
    {fuel : Nat} {pool later : Pool Task TaskError} {workspace last : Workspace}
    (barren : ∀ task ∈ pool.queue, task.Barren) (unlimited : workspace.Unlimited)
    (drained : pool.drain context.run order fuel workspace = some (later, last)) :
    last.nextDelta = workspace.nextDelta := by
  refine (Pool.drain_induction (motive := fun pool state => (∀ task ∈ pool.queue, task.Barren) ∧
    state.Unlimited ∧ state.nextDelta = workspace.nextDelta) ?_ drained
      ⟨barren, unlimited, rfl⟩).1.2.2
  rintro task pool later state last stepped ⟨barren, unlimited, same⟩
  obtain ⟨after, workspaceEq, spawnedEq, unmoved⟩ :=
    exists_unmoved rounds (barren task stepped.taken) unlimited
  obtain rfl : after.workspace = last := workspaceEq.trans stepped.state_eq.symm
  refine ⟨fun other member => ?_, ?_, unmoved.nextDelta_eq.trans same⟩
  · rcases stepped.after other member with before | spawned
    · exact barren other before
    · exact unmoved.spawned other (spawnedEq ▸ spawned)
  · unfold Workspace.Unlimited
    rw [unmoved.db_eq, unmoved.delta_eq]
    exact unlimited

end TaskContext

end Datalog
