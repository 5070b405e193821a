import Datalog.Pool
import Mathlib.Data.List.Basic

/-!
# Runs of a pool

A step of a pool takes a task from the queue and puts the tasks that it spawns at the end; whatever
every step keeps holds when the pool has been drained, and then no task is left.
-/

namespace Datalog

namespace Pool

variable {Task State Error : Type} {run : Task → State → TaskResult Task State Error}
  {order : Nat → Nat} {pool later : Pool Task Error} {state last : State}

theorem queue_submitAll (pool : Pool Task Error) (tasks : List Task) :
    (pool.submitAll tasks).queue = pool.queue ++ tasks := by
  induction tasks generalizing pool with
  | nil => simp [submitAll]
  | cons task tasks ih =>
      have rest := ih (pool.submit task)
      simp only [submitAll, List.foldl_cons] at rest ⊢
      rw [rest]
      simp [submit]

theorem failures_submitAll (pool : Pool Task Error) (tasks : List Task) :
    (pool.submitAll tasks).failures = pool.failures := by
  induction tasks generalizing pool with
  | nil => rfl
  | cons task tasks ih => exact ih (pool.submit task)

theorem queue_eq_nil_of_step (stuck : pool.step run order state = none) : pool.queue = [] := by
  simp only [step, take?, Option.map_eq_none_iff] at stuck
  split at stuck
  · next outside =>
      by_contra nonempty
      have := List.length_pos_iff.mpr nonempty
      have := Nat.mod_lt (order pool.started) this
      have := List.getElem?_eq_none_iff.mp outside
      omega
  · simp at stuck

/-- What a step of a pool does. -/
structure Stepped (run : Task → State → TaskResult Task State Error) (task : Task)
    (pool later : Pool Task Error) (state last : State) : Prop where
  state_eq : last = (run task state).state
  before : ∀ other, other ∈ pool.queue → other = task ∨ other ∈ later.queue
  taken : task ∈ pool.queue
  spawned : ∀ other ∈ (run task state).spawned, other ∈ later.queue
  after : ∀ other ∈ later.queue, other ∈ pool.queue ∨ other ∈ (run task state).spawned
  ok : (run task state).outcome = .ok () → later.failures = pool.failures
  error : ∀ error, (run task state).outcome = .error error →
    later.failures = pool.failures ++ [error]
  perm : (task :: later.queue).Perm (pool.queue ++ (run task state).spawned)

theorem Stepped.length_eq {task : Task} (stepped : Stepped run task pool later state last) :
    later.queue.length + 1 = pool.queue.length + (run task state).spawned.length := by
  simpa using stepped.perm.length_eq

/-- After a task that spawns nothing, only tasks that have waited before are waiting. -/
theorem Stepped.waited {task other : Task} (stepped : Stepped run task pool later state last)
    (nothing : (run task state).spawned = []) (member : other ∈ later.queue) : other ∈ pool.queue :=
  (stepped.after other member).resolve_right (by simp [nothing])

theorem Stepped.ended {task : Task} (stepped : Stepped run task pool later state last)
    (noFailure : later.failures = []) :
    (run task state).outcome = .ok () ∧ pool.failures = [] := by
  cases outcome : (run task state).outcome with
  | ok value => exact ⟨rfl, stepped.ok outcome ▸ noFailure⟩
  | error error => simp [stepped.error error outcome] at noFailure

theorem take?_eq_some {position : Nat} {task : Task}
    (taken : pool.take? position = some (task, later)) :
    (task :: later.queue).Perm pool.queue ∧ later.running = task :: pool.running ∧
      later.outstanding = pool.outstanding ∧ later.failures = pool.failures := by
  simp only [take?] at taken
  generalize position % pool.queue.length = place at taken
  split at taken
  · simp at taken
  · next found atPlace =>
      simp only [Option.some.injEq, Prod.mk.injEq] at taken
      obtain ⟨rfl, rfl⟩ := taken
      obtain ⟨inside, taskEq⟩ := List.getElem?_eq_some_iff.mp atPlace
      have queueSplit : pool.queue =
          pool.queue.take place ++ found :: pool.queue.drop (place + 1) := by
        rw [← taskEq, ← List.drop_eq_getElem_cons inside, List.take_append_drop]
      refine ⟨?_, rfl, rfl, rfl⟩
      simp only [List.eraseIdx_eq_take_drop_succ]
      conv_rhs => rw [queueSplit]
      exact List.perm_middle.symm

theorem take?_zero {task : Task} (taken : pool.take? 0 = some (task, later)) :
    pool.queue = task :: later.queue := by
  simp only [take?, Nat.zero_mod] at taken
  split at taken
  · cases taken
  · next found atFront =>
      simp only [Option.some.injEq, Prod.mk.injEq] at taken
      obtain ⟨rfl, rfl⟩ := taken
      cases queueEq : pool.queue with
      | nil => simp [queueEq] at atFront
      | cons first rest =>
          obtain rfl : first = found := by simpa [queueEq] using atFront
          rfl

/-- A step takes a task from the queue and puts the tasks that it spawns at the end. -/
theorem exists_taken (stepEq : pool.step run order state = some (later, last)) :
    ∃ task started, pool.take? (order pool.started) = some (task, started) ∧
      later.queue = started.queue ++ (run task state).spawned ∧
        Stepped run task pool later state last := by
  obtain ⟨⟨task, started⟩, takeEq, resultEq⟩ := Option.map_eq_some_iff.mp stepEq
  obtain ⟨perm, -, -, failuresEq⟩ := take?_eq_some takeEq
  simp only [Prod.mk.injEq] at resultEq
  obtain ⟨rfl, rfl⟩ := resultEq
  have queueEq : ((started.submitAll (run task state).spawned).finish 0
      (run task state).outcome).queue = started.queue ++ (run task state).spawned := by
    rw [← queue_submitAll]
    cases (run task state).outcome <;> rfl
  refine ⟨task, started, takeEq, queueEq, rfl, ?_, perm.mem_iff.mp List.mem_cons_self, ?_, ?_, ?_, ?_,
    ?_⟩
  · intro other member
    rw [queueEq, List.mem_append]
    rcases List.mem_cons.mp (perm.mem_iff.mpr member) with same | left
    · exact .inl same
    · exact .inr (.inl left)
  · intro other member
    rw [queueEq, List.mem_append]
    exact .inr member
  · intro other member
    rw [queueEq, List.mem_append] at member
    exact member.imp (fun left => perm.mem_iff.mp (List.mem_cons_of_mem _ left)) id
  · intro outcomeEq
    rw [outcomeEq, ← failuresEq]
    exact failures_submitAll _ _
  · intro error outcomeEq
    rw [outcomeEq, ← failuresEq]
    exact congrArg (· ++ [error]) (failures_submitAll _ _)
  · rw [queueEq, ← List.cons_append]
    exact perm.append_right _

theorem exists_stepped (stepEq : pool.step run order state = some (later, last)) :
    ∃ task, Stepped run task pool later state last := by
  obtain ⟨task, -, -, -, stepped⟩ := exists_taken stepEq
  exact ⟨task, stepped⟩

/-- What every step keeps holds at the end of a run, where a step may depend on the order. -/
theorem drain_induction_of_step {motive : Pool Task Error → State → Prop}
    (step : ∀ {pool later state last}, pool.step run order state = some (later, last) →
      motive pool state → motive later last)
    {fuel : Nat} (drained : pool.drain run order fuel state = some (later, last))
    (start : motive pool state) : motive later last ∧ later.queue = [] := by
  induction fuel generalizing pool state with
  | zero =>
      simp only [drain] at drained
      split at drained
      · next empty =>
          simp only [Option.some.injEq, Prod.mk.injEq] at drained
          obtain ⟨rfl, rfl⟩ := drained
          exact ⟨start, by simpa using empty⟩
      · simp at drained
  | succ fuel ih =>
      simp only [drain] at drained
      split at drained
      · next stuck =>
          simp only [Option.some.injEq, Prod.mk.injEq] at drained
          obtain ⟨rfl, rfl⟩ := drained
          exact ⟨start, queue_eq_nil_of_step stuck⟩
      · next stepEq => exact ih drained (step stepEq start)

/-- What every step keeps holds at the end of a run. -/
theorem drain_induction {motive : Pool Task Error → State → Prop}
    (step : ∀ {task pool later state last}, Stepped run task pool later state last →
      motive pool state → motive later last)
    {fuel : Nat} (drained : pool.drain run order fuel state = some (later, last))
    (start : motive pool state) : motive later last ∧ later.queue = [] := by
  refine drain_induction_of_step (fun stepEq before => ?_) drained start
  obtain ⟨task, stepped⟩ := exists_stepped stepEq
  exact step stepped before

theorem queue_eq_nil_of_drain {fuel : Nat}
    (drained : pool.drain run order fuel state = some (later, last)) : later.queue = [] :=
  (drain_induction (motive := fun _ _ => True) (fun _ _ => trivial) drained trivial).2

theorem failures_eq_nil_of_drain {fuel : Nat}
    (drained : pool.drain run order fuel state = some (later, last))
    (noFailure : later.failures = []) : pool.failures = [] :=
  (drain_induction (motive := fun between _ => between.failures = [] → pool.failures = [])
    (fun stepped before none => before (stepped.ended none).2) drained id).1 noFailure

/-- While a pool is drained, a task is taken in some state. -/
inductive Takes (run : Task → State → TaskResult Task State Error) (order : Nat → Nat) :
    Pool Task Error → State → Task → State → Prop where
  | now {pool started : Pool Task Error} {state : State} {task : Task}
      (taken : pool.take? (order pool.started) = some (task, started)) :
      Takes run order pool state task state
  | later {pool later : Pool Task Error} {state last between : State} {task : Task}
      (stepped : pool.step run order state = some (later, last))
      (takes : Takes run order later last task between) : Takes run order pool state task between

theorem exists_drained_of_step {final : Pool Task Error} {finalState : State} {fuel : Nat}
    (stepped : pool.step run order state = some (later, last))
    (drained : pool.drain run order fuel state = some (final, finalState)) :
    ∃ fuel', later.drain run order fuel' last = some (final, finalState) := by
  cases fuel with
  | zero =>
      obtain ⟨task, taken⟩ := exists_stepped stepped
      have waiting := taken.taken
      unfold drain at drained
      split at drained
      · next empty => simp [List.isEmpty_iff.mp empty] at waiting
      · cases drained
  | succ fuel =>
      unfold drain at drained
      rw [stepped] at drained
      exact ⟨fuel, drained⟩

theorem exists_step_of_take? {task : Task} {started : Pool Task Error}
    (taken : pool.take? (order pool.started) = some (task, started)) :
    ∃ later, pool.step run order state = some (later, (run task state).state) ∧
      Stepped run task pool later state (run task state).state := by
  have stepEq : ∃ later, pool.step run order state = some (later, (run task state).state) :=
    ⟨_, congrArg (Option.map _) taken⟩
  obtain ⟨later, stepEq⟩ := stepEq
  obtain ⟨other, _, otherTaken, -, stepped⟩ := exists_taken stepEq
  obtain ⟨rfl, -⟩ := Prod.mk.inj (Option.some.inj (taken.symm.trans otherTaken))
  exact ⟨later, stepEq, stepped⟩

/-- What every step keeps holds when a task is taken, and after this task the rest of the pool is
drained. -/
theorem Takes.exists_run {motive : Pool Task Error → State → Prop}
    (step : ∀ {task pool later state last}, Stepped run task pool later state last →
      motive pool state → motive later last)
    {task : Task} {between : State} (takes : Takes run order pool state task between)
    {final : Pool Task Error} {finalState : State} {fuel : Nat}
    (drained : pool.drain run order fuel state = some (final, finalState))
    (start : motive pool state) :
    ∃ before after fuel', motive before between ∧
      Stepped run task before after between (run task between).state ∧
        after.drain run order fuel' (run task between).state = some (final, finalState) := by
  induction takes generalizing fuel with
  | now taken =>
      obtain ⟨later, stepEq, stepped⟩ := exists_step_of_take? taken
      obtain ⟨fuel', drained⟩ := exists_drained_of_step stepEq drained
      exact ⟨_, later, fuel', start, stepped, drained⟩
  | later stepEq _ ih =>
      obtain ⟨task, stepped⟩ := exists_stepped stepEq
      obtain ⟨fuel', drained⟩ := exists_drained_of_step stepEq drained
      exact ih drained (step stepped start)

/-- Two ways of running tasks come to the same if they do for every task that is taken. -/
theorem drain_congr {run' : Task → State → TaskResult Task State Error}
    {motive : Pool Task Error → State → Prop}
    (step : ∀ {task pool later state last}, Stepped run task pool later state last →
      motive pool state → motive later last)
    (same : ∀ {pool state}, motive pool state → ∀ task ∈ pool.queue, run task state = run' task state)
    (start : motive pool state) (fuel : Nat) :
    pool.drain run order fuel state = pool.drain run' order fuel state := by
  induction fuel generalizing pool state with
  | zero => rfl
  | succ fuel ih =>
      have sameStep : pool.step run order state = pool.step run' order state := by
        unfold Pool.step
        cases takeEq : pool.take? (order pool.started) with
        | none => rfl
        | some taken =>
            have inQueue := (take?_eq_some takeEq).1.mem_iff.mp List.mem_cons_self
            simp only [Option.map_some, same start taken.1 inQueue]
      unfold drain
      rw [← sameStep]
      cases stepEq : pool.step run order state with
      | none => rfl
      | some result =>
          obtain ⟨task, stepped⟩ := exists_stepped stepEq
          exact ih (step stepped start)

/-- A pool is drained in as many steps as a potential is high, if every step lowers it. -/
theorem exists_drained_of_potential {motive : Pool Task Error → State → Prop}
    (potential : Pool Task Error → State → Nat)
    (step : ∀ {task pool later state last}, Stepped run task pool later state last →
      motive pool state → motive later last ∧ potential later last < potential pool state)
    {fuel : Nat} (start : motive pool state) (enough : potential pool state ≤ fuel) :
    ∃ later last, pool.drain run order fuel state = some (later, last) := by
  induction fuel generalizing pool state with
  | zero =>
      cases stepEq : pool.step run order state with
      | none => exact ⟨pool, state, by simp [drain, queue_eq_nil_of_step stepEq]⟩
      | some result =>
          obtain ⟨task, stepped⟩ := exists_stepped stepEq
          have lower := (step stepped start).2
          omega
  | succ fuel ih =>
      cases stepEq : pool.step run order state with
      | none => exact ⟨pool, state, by simp [drain, stepEq]⟩
      | some result =>
          obtain ⟨later, last⟩ := result
          obtain ⟨task, stepped⟩ := exists_stepped stepEq
          obtain ⟨kept, lower⟩ := step stepped start
          have rest : ∃ drained ended, drain run order fuel later last = some (drained, ended) :=
            ih kept (by omega)
          obtain ⟨drained, ended, drainEq⟩ := rest
          exact ⟨drained, ended, by simp [drain, stepEq, drainEq]⟩

/-- A pool whose tasks spawn nothing is drained in as many steps as there are tasks. -/
theorem exists_drained (quiet : Task → Prop)
    (spawnsNothing : ∀ task state, quiet task → (run task state).spawned = []) {fuel : Nat}
    (allQuiet : ∀ task ∈ pool.queue, quiet task) (enough : pool.queue.length ≤ fuel) :
    ∃ later last, pool.drain run order fuel state = some (later, last) := by
  refine exists_drained_of_potential (motive := fun pool _ => ∀ task ∈ pool.queue, quiet task)
    (fun pool _ => pool.queue.length) ?_ allQuiet enough
  intro task pool later state last stepped allQuiet
  have nothing := spawnsNothing task state (allQuiet task stepped.taken)
  have lengthEq := stepped.length_eq
  rw [nothing, List.length_nil] at lengthEq
  exact ⟨fun other member => allQuiet other (stepped.waited nothing member), by omega⟩

/-! ## Other tasks -/

section Map

variable {Task' : Type} {give : Task → Task'}

def map (give : Task → Task') (pool : Pool Task Error) : Pool Task' Error :=
  { pool with queue := pool.queue.map give, running := pool.running.map give }

theorem map_eraseIdx (tasks : List Task) (position : Nat) :
    (tasks.map give).eraseIdx position = (tasks.eraseIdx position).map give := by
  simp only [List.eraseIdx_eq_take_drop_succ, List.map_append, List.map_take, List.map_drop]

theorem take?_map (pool : Pool Task Error) (position : Nat) :
    (pool.map give).take? position = (pool.take? position).map (Prod.map give (map give)) := by
  unfold take? map
  simp only [List.length_map, List.getElem?_map]
  cases pool.queue[position % pool.queue.length]? with
  | none => rfl
  | some task => simp [map_eraseIdx]

theorem submitAll_map (pool : Pool Task Error) (tasks : List Task) :
    (pool.map give).submitAll (tasks.map give) = (pool.submitAll tasks).map give := by
  induction tasks generalizing pool with
  | nil => rfl
  | cons task tasks ih =>
      have submitted : (pool.map give).submit (give task) = (pool.submit task).map give := by
        simp [submit, map]
      have rest := ih (pool.submit task)
      rw [← submitted] at rest
      exact rest

theorem finish_map (pool : Pool Task Error) (position : Nat) (outcome : Except Error Unit) :
    (pool.map give).finish position outcome = (pool.finish position outcome).map give := by
  unfold finish
  cases outcome <;> simp [map, recordFailure, map_eraseIdx]

/-- Ways of running tasks that correspond lead to pools that correspond and to the same state. -/
theorem drain_map {run' : Task' → State → TaskResult Task' State Error}
    (same : ∀ task state, run' (give task) state =
      { (run task state) with spawned := (run task state).spawned.map give })
    (fuel : Nat) (pool : Pool Task Error) (state : State) :
    (pool.map give).drain run' order fuel state =
      (pool.drain run order fuel state).map (Prod.map (map give) id) := by
  have stepEq : ∀ (pool : Pool Task Error) state, (pool.map give).step run' order state =
      (pool.step run order state).map (Prod.map (map give) id) := by
    intro pool state
    unfold Pool.step
    rw [show (pool.map give).started = pool.started from rfl, take?_map, Option.map_map,
      Option.map_map]
    refine congrArg (Option.map · _) (funext fun taken => ?_)
    simp only [Function.comp_apply, Prod.map, same, submitAll_map, finish_map, id]
  induction fuel generalizing pool state with
  | zero =>
      unfold drain
      rw [show (pool.map give).queue.isEmpty = pool.queue.isEmpty from List.isEmpty_map]
      split <;> rfl
  | succ fuel ih =>
      unfold drain
      rw [stepEq]
      cases pool.step run order state with
      | none => rfl
      | some result => exact ih result.1 result.2

end Map

end Pool

end Datalog
