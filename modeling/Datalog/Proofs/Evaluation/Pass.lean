import Datalog.Evaluation.Fixpoint
import Datalog.Proofs.Evaluation.Steps
import Datalog.Proofs.Pool

/-!
# Passes

In a pass some rules are run together with all tasks that they lead to.  The tasks that wait are sound
at any time, even after a task has failed.  Unless one has, every fact that was promised at the start has
been reported or is promised by a task that waits; at the end no task waits, so that all of them have
been reported.
-/

namespace Datalog

variable {frame : Frame} {context : TaskContext} {workspace : Workspace}

/-- What holds while a pass is under way. -/
structure UnderWay (frame : Frame) (strategy : Strategy) (start : Workspace) (target : Model)
    (pool : Pool Task TaskError) (workspace : Workspace) : Prop where
  fits : workspace.Fits frame strategy
  triggered : ∀ plan ∈ strategy.triggered, plan.Sound frame strategy workspace
  sound : ∀ task ∈ pool.queue, task.Sound frame strategy workspace
  grows : workspace.Grows frame.symbols start
  promised : pool.failures = [] → ∀ fact ∈ target, workspace.Reported fact ∨
    ∃ task ∈ pool.queue, task.Promises frame strategy workspace fact

theorem TaskState.Ready.start {strategy : Strategy} (fits : workspace.Fits frame strategy)
    (triggered : ∀ plan ∈ strategy.triggered, plan.Sound frame strategy workspace) :
    TaskState.Ready frame strategy { workspace, substitution := .unbound 0 } where
  fits := fits
  triggered := triggered
  spawned := by simp
  grounded := Bindings.grounded_unbound _ _

/-- What a task leaves behind; if it ends well, it has kept its promises. -/
theorem TaskContext.exists_stopped (computes : context.functions.Computes frame.meaning)
    (fits : workspace.Fits frame context.strategy)
    (triggered : ∀ plan ∈ context.strategy.triggered,
      plan.Sound frame context.strategy workspace)
    {task : Task} (sound : task.Sound frame context.strategy workspace)
    (room : (context.run task workspace).state.terms.HasRoom) :
    ∃ later : TaskState, later.workspace = (context.run task workspace).state ∧
      later.spawned = (context.run task workspace).spawned ∧
        TaskState.Stopped frame context.strategy workspace later ∧
          ((context.run task workspace).outcome = .ok () →
            task.Kept frame context.strategy workspace later) := by
  have ready := TaskState.Ready.start fits triggered
  obtain ⟨later, stateEq, spawnedEq, ended⟩ := exists_ran (steps_leaves computes ready sound)
  rw [← stateEq] at room
  refine ⟨later, stateEq, spawnedEq, ?_⟩
  rcases ended with ⟨-, kept⟩ | ⟨failure, failed, stopped⟩
  · have isKept := kept room
    exact ⟨isKept.ready.stopped.after isKept.grows, fun _ => isKept⟩
  · exact ⟨stopped room, by simp [failed]⟩

/-- What a waiting task promises is reported or still promised after a task has kept its promises. -/
theorem Task.Kept.promised_after {pool later : Pool Task TaskError} {task other : Task}
    {state : TaskState} (kept : task.Kept frame context.strategy workspace state)
    (stepped : Pool.Stepped context.run task pool later workspace state.workspace)
    (spawnedEq : state.spawned = (context.run task workspace).spawned)
    (waiting : other ∈ pool.queue) {fact : GroundFact}
    (promises : other.Promises frame context.strategy workspace fact) :
    state.workspace.Reported fact ∨
      ∃ next ∈ later.queue, next.Promises frame context.strategy state.workspace fact := by
  rcases stepped.before other waiting with rfl | left
  · refine (kept.promised fact promises).imp id ?_
    rintro ⟨next, spawned, nextPromises⟩
    exact ⟨next, stepped.spawned next (spawnedEq ▸ spawned), nextPromises⟩
  · exact .inr ⟨other, left, promises.mono kept.grows⟩

/-- A step of a pass. -/
theorem UnderWay.step (computes : context.functions.Computes frame.meaning) {start : Workspace}
    {target : Model} {pool later : Pool Task TaskError} {workspace last : Workspace} {task : Task}
    (stepped : Pool.Stepped context.run task pool later workspace last)
    (underWay : UnderWay frame context.strategy start target pool workspace)
    (room : last.terms.HasRoom) :
    UnderWay frame context.strategy start target later last := by
  obtain ⟨state, workspaceEq, spawnedEq, stopped, kept⟩ := context.exists_stopped computes
    underWay.fits underWay.triggered (underWay.sound task stepped.taken) (stepped.state_eq ▸ room)
  obtain rfl : state.workspace = last := workspaceEq.trans stepped.state_eq.symm
  refine ⟨stopped.fits, fun plan member => (underWay.triggered plan member).mono stopped.grows, ?_,
    stopped.grows.trans underWay.grows, ?_⟩
  · intro other member
    rcases stepped.after other member with before | spawned
    · exact (underWay.sound other before).mono stopped.grows
    · exact stopped.spawned other (spawnedEq ▸ spawned)
  · intro noFailure fact member
    obtain ⟨ended, noneBefore⟩ := stepped.ended noFailure
    rcases underWay.promised noneBefore fact member with reported | ⟨other, waiting, promises⟩
    · exact .inl (reported.mono stopped.grows)
    · exact (kept ended).promised_after stepped spawnedEq waiting promises

/-- A pass that is under way could have begun where it is. -/
theorem UnderWay.here {strategy : Strategy} {start : Workspace} {target : Model}
    {pool : Pool Task TaskError} (underWay : UnderWay frame strategy start target pool workspace) :
    UnderWay frame strategy workspace ∅ pool workspace :=
  { underWay with grows := .refl _, promised := fun _ _ member => member.elim }

theorem TaskContext.extends_drain {order : Nat → Nat} {fuel : Nat}
    {pool later : Pool Task TaskError} {workspace last : Workspace}
    (drained : pool.drain context.run order fuel workspace = some (later, last)) :
    last.terms.Extends workspace.terms :=
  (Pool.drain_induction (motive := fun _ state => state.terms.Extends workspace.terms)
    (fun stepped grown => stepped.state_eq ▸ (context.extends_run _ _).trans grown) drained
    (.refl _)).1

section Drain

variable {motive : Pool Task TaskError → Workspace → Prop} {order : Nat → Nat} {fuel : Nat}
  {pool later : Pool Task TaskError} {last : Workspace}

/-- What every step keeps, given room for it, holds at the end if there is room; a step may depend on
the order. -/
theorem TaskContext.drain_with_room_of_step
    (step : ∀ {pool later workspace last},
      pool.step context.run order workspace = some (later, last) → last.terms.HasRoom →
        motive pool workspace → motive later last)
    (drained : pool.drain context.run order fuel workspace = some (later, last))
    (start : motive pool workspace) (room : last.terms.HasRoom) : motive later last := by
  refine (Pool.drain_induction_of_step
    (motive := fun pool state => state.terms.HasRoom → motive pool state)
    (fun stepEq before room => step stepEq room (before ?_)) drained fun _ => start).1 room
  obtain ⟨task, stepped⟩ := Pool.exists_stepped stepEq
  exact (context.extends_run _ _).hasRoom (stepped.state_eq ▸ room)

/-- What every step keeps, given room for it, holds at the end if there is room. -/
theorem TaskContext.drain_with_room
    (step : ∀ {task pool later workspace last},
      Pool.Stepped context.run task pool later workspace last → last.terms.HasRoom →
        motive pool workspace → motive later last)
    (drained : pool.drain context.run order fuel workspace = some (later, last))
    (start : motive pool workspace) (room : last.terms.HasRoom) : motive later last := by
  refine drain_with_room_of_step (fun stepEq room before => ?_) drained start room
  obtain ⟨task, stepped⟩ := Pool.exists_stepped stepEq
  exact step stepped room before

/-- What every step of a task that ends well keeps, given room for it, holds at the end if no task has
failed. -/
theorem TaskContext.drain_without_failure
    (step : ∀ {task pool later workspace last},
      Pool.Stepped context.run task pool later workspace last → last.terms.HasRoom →
        (context.run task workspace).outcome = .ok () → motive pool workspace → motive later last)
    (drained : pool.drain context.run order fuel workspace = some (later, last))
    (start : motive pool workspace) (noFailure : later.failures = []) (room : last.terms.HasRoom) :
    motive later last := by
  refine drain_with_room (motive := fun pool state => pool.failures = [] → motive pool state)
    (fun stepped room before noFailure => ?_) drained (fun _ => start) room noFailure
  obtain ⟨ended, noneBefore⟩ := stepped.ended noFailure
  exact step stepped room ended (before noneBefore)

end Drain

theorem FixpointContext.interns_runRules (context : FixpointContext) (strategy : Strategy)
    (rules : List RulePlan) : Interns (context.runRules strategy rules) := by
  intro machine
  unfold runRules
  rw [leaves_bind, leaves_get]
  extract_lets tasks pool
  split
  · exact .refl machine.workspace.terms
  · next last workspace drained =>
      have grown := TaskContext.extends_drain drained
      rw [leaves_bind, leaves_set]
      split
      · exact grown
      · exact grown

/-- A pass without failures reports everything that was promised. -/
theorem UnderWay.drain (computes : context.functions.Computes frame.meaning) {start : Workspace}
    {target : Model} {order : Nat → Nat} {fuel : Nat} {pool later : Pool Task TaskError}
    {workspace last : Workspace}
    (underWay : UnderWay frame context.strategy start target pool workspace)
    (drained : pool.drain context.run order fuel workspace = some (later, last))
    (room : last.terms.HasRoom) :
    last.Fits frame context.strategy ∧ last.Grows frame.symbols start ∧
      (later.failures = [] → ∀ fact ∈ target, last.Reported fact) := by
  have last := TaskContext.drain_with_room
    (fun stepped room underWay => UnderWay.step computes stepped underWay room) drained underWay room
  refine ⟨last.fits, last.grows, fun noFailure fact member => ?_⟩
  rcases last.promised noFailure fact member with reported | ⟨task, waiting, -⟩
  · exact reported
  · simp [Pool.queue_eq_nil_of_drain drained] at waiting

/-- At the start the tasks that wait promise everything. -/
theorem underWay_start {strategy : Strategy} {target : Model} {pool : Pool Task TaskError}
    {tasks : List Task} (idle : pool.queue = []) (fits : workspace.Fits frame strategy)
    (triggered : ∀ plan ∈ strategy.triggered, plan.Sound frame strategy workspace)
    (sound : ∀ task ∈ tasks, task.Sound frame strategy workspace)
    (promised : ∀ fact ∈ target, ∃ task ∈ tasks, task.Promises frame strategy workspace fact) :
    UnderWay frame strategy workspace target (pool.submitAll tasks) workspace := by
  have queueEq : (pool.submitAll tasks).queue = tasks := by
    simp [Pool.queue_submitAll, idle]
  refine ⟨fits, triggered, fun task member => sound task (queueEq ▸ member), .refl _,
    fun _ fact member => .inr ?_⟩
  rw [queueEq]
  exact promised fact member

/-- At the start of a pass its rules promise what they derive from what is certain. -/
theorem underWay_submitAll {strategy : Strategy} {rules : List RulePlan} {machine : Machine}
    (idle : machine.pool.queue = []) (fits : machine.workspace.Fits frame strategy)
    (triggered : ∀ plan ∈ strategy.triggered, plan.Sound frame strategy machine.workspace)
    (sound : ∀ plan ∈ rules, plan.Sound frame strategy machine.workspace) :
    UnderWay frame strategy machine.workspace
      {fact | ∃ plan ∈ rules, fact ∈
        plan.source.consequences frame.meaning frame.certain (frame.certain false)}
      (machine.pool.submitAll (rules.map .evaluate)) machine.workspace := by
  refine underWay_start idle fits triggered ?_ ?_
  · intro task member
    obtain ⟨plan, planMember, rfl⟩ := List.mem_map.mp member
    exact sound plan planMember
  · rintro fact ⟨plan, planMember, derived⟩
    exact ⟨.evaluate plan, List.mem_map_of_mem planMember, derived⟩

/-- Some rules are run to the end, or until a task fails. -/
theorem FixpointContext.runRules_leaves {context : FixpointContext}
    (computes : context.functions.Computes frame.meaning) {strategy : Strategy}
    {rules : List RulePlan} {machine : Machine} (idle : machine.pool.queue = [])
    (fits : machine.workspace.Fits frame strategy)
    (triggered : ∀ plan ∈ strategy.triggered, plan.Sound frame strategy machine.workspace)
    (sound : ∀ plan ∈ rules, plan.Sound frame strategy machine.workspace) :
    LeavesWithRoom (context.runRules strategy rules) machine
      (fun _ later => later.pool.queue = [] ∧ later.workspace.Fits frame strategy ∧
        later.workspace.Grows frame.symbols machine.workspace ∧
          ∀ plan ∈ rules, ∀ fact ∈
            plan.source.consequences frame.meaning frame.certain (frame.certain false),
              later.workspace.Reported fact)
      fun _ later => later.workspace.Fits frame strategy ∧
        later.workspace.Grows frame.symbols machine.workspace := by
  refine .get_bind ?_
  extract_lets tasks pool
  have underWay := underWay_submitAll idle fits triggered sound
  split
  · exact .throw ⟨fits, .refl _⟩
  · next last workspace drained =>
      unfold LeavesWithRoom
      rw [leaves_bind, leaves_set]
      have done := UnderWay.drain computes underWay drained
      split
      · exact fun room => ⟨(done room).1, (done room).2.1⟩
      · next succeeded =>
          intro room
          have noFailure : last.failures = [] := List.head?_eq_none_iff.mp succeeded
          obtain ⟨lastFits, grows, reported⟩ := done room
          have empty := Pool.queue_eq_nil_of_drain drained
          exact ⟨empty, lastFits, grows, fun plan member fact derived =>
            reported noFailure fact ⟨plan, member, derived⟩⟩

end Datalog
