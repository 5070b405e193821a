import Datalog.Function.Registry
import Datalog.Proofs.Pool
import Mathlib.Data.List.Basic

/-!
# Interleavings of tasks

Several workers share a pool.  At any moment a task may be submitted from outside, a free worker may
take a task that waits, and a task that runs may submit another one or end.  Whatever the order of these
events, the pool counts the tasks that have not ended, starts each task once, and keeps the first failure.
A pool without workers has no one to submit a task to.
-/

namespace Datalog

namespace Pool

variable {Task : Type} {workers : Nat}

/-- How the code of a task ends. -/
inductive Ending where
  | completed
  | failed (error : EvalError)
  /-- The code panics; its payload may carry a text. -/
  | panicked (payload : Option String)
  deriving DecidableEq

namespace Ending

/-- What the pool records about an ending. -/
def error? : Ending → Option EvalError
  | .completed => none
  | .failed error => some error
  | .panicked payload => some ((Fault.panic payload).toError .panicked)

def outcome (ending : Ending) : Except EvalError Unit :=
  match ending.error? with
  | none => .ok ()
  | some error => .error error

theorem isSome_error?_iff (ending : Ending) : ending.error?.isSome ↔ ending ≠ .completed := by
  cases ending <;> simp [error?]

theorem exists_outcome_eq (result : Except EvalError Unit) :
    ∃ ending : Ending, ending.outcome = result := by
  cases result with
  | ok value => exact ⟨.completed, rfl⟩
  | error error => exact ⟨.failed error, rfl⟩

end Ending

/-- What happens to the tasks of a pool. -/
inductive Event (Task : Type) where
  | submitted (task : Task)
  | started (task : Task)
  | spawned (parent child : Task)
  | ended (task : Task) (ending : Ending)

namespace Event

def submission? : Event Task → Option Task
  | .submitted task | .spawned _ task => some task
  | .started _ | .ended .. => none

def start? : Event Task → Option Task
  | .started task => some task
  | .submitted _ | .spawned .. | .ended .. => none

def end? : Event Task → Option Task
  | .ended task _ => some task
  | .submitted _ | .spawned .. | .started _ => none

def error? : Event Task → Option EvalError
  | .ended _ ending => ending.error?
  | .submitted _ | .spawned .. | .started _ => none

end Event

/-- The tasks that were submitted, from outside or by other tasks. -/
def submissions (events : List (Event Task)) : List Task :=
  events.filterMap Event.submission?

def starts (events : List (Event Task)) : List Task :=
  events.filterMap Event.start?

def ends (events : List (Event Task)) : List Task :=
  events.filterMap Event.end?

def errors (events : List (Event Task)) : List EvalError :=
  events.filterMap Event.error?

/-- What an event does to a pool, and when it may happen. -/
inductive Step (workers : Nat) (pool : Pool Task) : Event Task → Pool Task → Prop where
  | submit (staffed : 0 < workers) (task : Task) :
      Step workers pool (.submitted task) (pool.submit task)
  | start (position : Nat) {task : Task} {later : Pool Task}
      (free : pool.running.length < workers) (taken : pool.take? position = some (task, later)) :
      Step workers pool (.started task) later
  | spawn (place : Nat) {parent : Task} (runs : pool.running[place]? = some parent) (child : Task) :
      Step workers pool (.spawned parent child) (pool.submit child)
  | finish (place : Nat) {task : Task} (runs : pool.running[place]? = some task) (ending : Ending) :
      Step workers pool (.ended task ending) (pool.finish place ending.outcome)

/-- Events one after another. -/
inductive Runs (workers : Nat) (first : Pool Task) : List (Event Task) → Pool Task → Prop where
  | nil : Runs workers first [] first
  | snoc {events : List (Event Task)} {pool later : Pool Task} {event : Event Task}
      (before : Runs workers first events pool) (step : Step workers pool event later) :
      Runs workers first (events ++ [event]) later

variable {events more : List (Event Task)} {first pool later : Pool Task}

theorem Step.runs {event : Event Task} (step : Step workers pool event later) :
    Runs workers pool [event] later :=
  .snoc .nil step

theorem Runs.trans (earlier : Runs workers first events pool) (runs : Runs workers pool more later) :
    Runs workers first (events ++ more) later := by
  induction runs with
  | nil => simpa using earlier
  | snoc before step ih =>
      rw [← List.append_assoc]
      exact .snoc ih step

/-! ## What every event keeps -/

theorem outstanding_finish (pool : Pool Task) (place : Nat) (outcome : Except EvalError Unit) :
    (pool.finish place outcome).outstanding = pool.outstanding - 1 := by
  cases outcome <;> rfl

theorem queue_finish (pool : Pool Task) (place : Nat) (outcome : Except EvalError Unit) :
    (pool.finish place outcome).queue = pool.queue := by
  cases outcome <;> rfl

theorem running_finish (pool : Pool Task) (place : Nat) (outcome : Except EvalError Unit) :
    (pool.finish place outcome).running = pool.running.eraseIdx place := by
  cases outcome <;> rfl

theorem failures_finish (pool : Pool Task) (place : Nat) (ending : Ending) :
    (pool.finish place ending.outcome).failures = pool.failures ++ ending.error?.toList := by
  cases found : ending.error? <;> simp [finish, Ending.outcome, found, recordFailure]

theorem perm_eraseIdx {tasks : List Task} {place : Nat} {task : Task}
    (found : tasks[place]? = some task) : (task :: tasks.eraseIdx place).Perm tasks := by
  obtain ⟨inside, taskEq⟩ := List.getElem?_eq_some_iff.mp found
  rw [List.eraseIdx_eq_take_drop_succ]
  calc
    (task :: (tasks.take place ++ tasks.drop (place + 1))).Perm
        (tasks.take place ++ task :: tasks.drop (place + 1)) := List.perm_middle.symm
    _ = tasks := by rw [← taskEq, ← List.drop_eq_getElem_cons inside, List.take_append_drop]

/-- The books of a pool: what it holds is what the events before have left of what was submitted. -/
structure Accounts (workers : Nat) (events : List (Event Task)) (pool : Pool Task) : Prop where
  outstanding_eq : pool.outstanding = pool.queue.length + pool.running.length
  running_le : pool.running.length ≤ workers
  /-- Each submitted task waits or was started once. -/
  submissions_perm : (pool.queue ++ starts events).Perm (submissions events)
  /-- Each started task runs or has ended once. -/
  starts_perm : (pool.running ++ ends events).Perm (starts events)
  failures_eq : pool.failures = errors events

theorem submissions_snoc (events : List (Event Task)) (event : Event Task) :
    submissions (events ++ [event]) = submissions events ++ event.submission?.toList := by
  cases event <;> simp [submissions, Event.submission?]

theorem starts_snoc (events : List (Event Task)) (event : Event Task) :
    starts (events ++ [event]) = starts events ++ event.start?.toList := by
  cases event <;> simp [starts, Event.start?]

theorem ends_snoc (events : List (Event Task)) (event : Event Task) :
    ends (events ++ [event]) = ends events ++ event.end?.toList := by
  cases event <;> simp [ends, Event.end?]

theorem errors_append (events more : List (Event Task)) :
    errors (events ++ more) = errors events ++ errors more :=
  List.filterMap_append

theorem errors_snoc (events : List (Event Task)) (event : Event Task) :
    errors (events ++ [event]) = errors events ++ event.error?.toList := by
  cases found : event.error? <;> simp [errors, found]

/-- A submission, from outside or by a running task, is counted before the task waits. -/
theorem Accounts.submit {event : Event Task} {task : Task} (accounts : Accounts workers events pool)
    (submits : event.submission? = some task) :
    Accounts workers (events ++ [event]) (pool.submit task) := by
  have quiet : event.start? = none ∧ event.end? = none ∧ event.error? = none := by
    cases event <;> simp_all [Event.submission?, Event.start?, Event.end?, Event.error?]
  obtain ⟨noStart, noEnd, noError⟩ := quiet
  have outstandingEq := accounts.outstanding_eq
  constructor
  · simp only [Pool.submit, List.length_append, List.length_singleton]
    omega
  · exact accounts.running_le
  · rw [submissions_snoc, starts_snoc, submits, noStart]
    simp only [Pool.submit, Option.toList_some, Option.toList_none, List.append_nil]
    calc
      (pool.queue ++ [task] ++ starts events).Perm (pool.queue ++ starts events ++ [task]) := by
        rw [List.append_assoc, List.append_assoc]
        exact List.perm_append_comm.append_left _
      (pool.queue ++ starts events ++ [task]).Perm (submissions events ++ [task]) :=
        accounts.submissions_perm.append_right _
  · rw [starts_snoc, ends_snoc, noStart, noEnd]
    simpa [Pool.submit] using accounts.starts_perm
  · rw [errors_snoc, noError]
    simpa [Pool.submit] using accounts.failures_eq

theorem Accounts.start {position : Nat} {task : Task} (accounts : Accounts workers events pool)
    (free : pool.running.length < workers) (taken : pool.take? position = some (task, later)) :
    Accounts workers (events ++ [.started task]) later := by
  obtain ⟨perm, runningEq, outstandingEq, failuresEq⟩ := take?_eq_some taken
  constructor
  · have queueLength := perm.length_eq
    rw [outstandingEq, accounts.outstanding_eq, runningEq, List.length_cons]
    rw [List.length_cons] at queueLength
    omega
  · rw [runningEq, List.length_cons]
    omega
  · rw [submissions_snoc, starts_snoc]
    simp only [Event.submission?, Event.start?, Option.toList_some, Option.toList_none,
      List.append_nil]
    calc
      (later.queue ++ (starts events ++ [task])).Perm (task :: later.queue ++ starts events) := by
        rw [← List.append_assoc]
        exact List.perm_append_singleton ..
      (task :: later.queue ++ starts events).Perm (pool.queue ++ starts events) :=
        perm.append_right _
      (pool.queue ++ starts events).Perm (submissions events) := accounts.submissions_perm
  · rw [starts_snoc, ends_snoc, runningEq]
    simp only [Event.start?, Event.end?, Option.toList_some, Option.toList_none, List.append_nil]
    exact (accounts.starts_perm.cons task).trans (List.perm_append_singleton ..).symm
  · rw [errors_snoc, failuresEq, accounts.failures_eq]
    simp [Event.error?]

theorem Accounts.finish {place : Nat} {task : Task} (accounts : Accounts workers events pool)
    (runs : pool.running[place]? = some task) (ending : Ending) :
    Accounts workers (events ++ [.ended task ending]) (pool.finish place ending.outcome) := by
  have perm := perm_eraseIdx runs
  have runningLength := perm.length_eq
  rw [List.length_cons] at runningLength
  have runningLe := accounts.running_le
  constructor
  · rw [outstanding_finish, queue_finish, running_finish, accounts.outstanding_eq]
    omega
  · rw [running_finish]
    omega
  · rw [submissions_snoc, starts_snoc, queue_finish]
    simpa [Event.submission?, Event.start?] using accounts.submissions_perm
  · rw [starts_snoc, ends_snoc, running_finish]
    simp only [Event.start?, Event.end?, Option.toList_some, Option.toList_none, List.append_nil]
    calc
      (pool.running.eraseIdx place ++ (ends events ++ [task])).Perm
          (task :: pool.running.eraseIdx place ++ ends events) := by
        rw [← List.append_assoc]
        exact List.perm_append_singleton ..
      (task :: pool.running.eraseIdx place ++ ends events).Perm (pool.running ++ ends events) :=
        perm.append_right _
      (pool.running ++ ends events).Perm (starts events) := accounts.starts_perm
  · rw [errors_snoc, failures_finish, accounts.failures_eq]
    rfl

theorem Accounts.step {event : Event Task} (accounts : Accounts workers events pool)
    (step : Step workers pool event later) : Accounts workers (events ++ [event]) later := by
  cases step with
  | submit _ task => exact accounts.submit rfl
  | start _ free taken => exact accounts.start free taken
  | spawn _ runs child => exact accounts.submit rfl
  | finish _ runs ending => exact accounts.finish runs ending

theorem accounts_nil : Accounts workers ([] : List (Event Task)) {} := by
  constructor <;> simp [starts, ends, submissions, errors]

theorem Accounts.run (accounts : Accounts workers events pool) (runs : Runs workers pool more later) :
    Accounts workers (events ++ more) later := by
  induction runs with
  | nil => simpa using accounts
  | snoc before step ih =>
      rw [← List.append_assoc]
      exact ih.step step

/-! ## What a caller that waits finds -/

theorem Accounts.isQuiescent_iff (accounts : Accounts workers events pool) :
    pool.isQuiescent = true ↔ pool.queue = [] ∧ pool.running = [] := by
  rw [isQuiescent, decide_eq_true_iff, accounts.outstanding_eq, Nat.add_eq_zero_iff,
    List.length_eq_zero_iff, List.length_eq_zero_iff]

/-- Once no task is outstanding, every task that was submitted has been started and has ended. -/
theorem Accounts.settled (accounts : Accounts workers events pool)
    (quiescent : pool.isQuiescent = true) :
    (starts events).Perm (submissions events) ∧ (ends events).Perm (submissions events) := by
  obtain ⟨noneWaits, noneRuns⟩ := accounts.isQuiescent_iff.mp quiescent
  have started := accounts.submissions_perm
  have ended := accounts.starts_perm
  rw [noneWaits, List.nil_append] at started
  rw [noneRuns, List.nil_append] at ended
  exact ⟨started, ended.trans started⟩

theorem exists_take {task : Task} (waits : task ∈ pool.queue) :
    ∃ position later, pool.take? position = some (task, later) := by
  obtain ⟨position, inside, rfl⟩ := List.mem_iff_getElem.mp waits
  refine ⟨position, ?_⟩
  simp [take?, Nat.mod_eq_of_lt inside, List.getElem?_eq_getElem inside]

/-- As long as a task is outstanding the pool can go on by itself, whatever has failed. -/
theorem Accounts.exists_step (accounts : Accounts workers events pool) (staffed : 0 < workers)
    (busy : pool.isQuiescent = false) :
    ∃ event later, event.submission? = none ∧ Step workers pool event later := by
  cases running : pool.running with
  | cons task others =>
      have runs : pool.running[0]? = some task := by rw [running]; rfl
      exact ⟨.ended task .completed, _, rfl, .finish 0 runs .completed⟩
  | nil =>
      cases queue : pool.queue with
      | nil =>
          have quiescent := accounts.isQuiescent_iff.mpr ⟨queue, running⟩
          rw [quiescent] at busy
          contradiction
      | cons task others =>
          have waits : task ∈ pool.queue := by simp [queue]
          obtain ⟨position, later, taken⟩ := exists_take waits
          have free : pool.running.length < workers := by simpa [running] using staffed
          exact ⟨.started task, later, rfl, .start position free taken⟩

/-! ## The failure that is kept -/

theorem Accounts.failure_eq (accounts : Accounts workers events pool) :
    pool.failure = (errors events).head? := by
  rw [failure, accounts.failures_eq]

theorem Accounts.hasFailed_iff (accounts : Accounts workers events pool) :
    pool.hasFailed = true ↔ ∃ task ending, .ended task ending ∈ events ∧ ending ≠ .completed := by
  rw [hasFailed, accounts.failure_eq, List.isSome_head?]
  constructor
  · intro failed
    obtain ⟨error, member⟩ := List.exists_mem_of_ne_nil _ failed
    obtain ⟨event, inEvents, errorEq⟩ := List.mem_filterMap.mp member
    cases event with
    | submitted task => cases errorEq
    | started task => cases errorEq
    | spawned parent child => cases errorEq
    | ended task ending =>
        have recorded : ending.error? = some error := errorEq
        exact ⟨task, ending, inEvents, ending.isSome_error?_iff.mp (by simp [recorded])⟩
  · rintro ⟨task, ending, inEvents, bad⟩
    obtain ⟨error, errorEq⟩ := Option.isSome_iff_exists.mp (ending.isSome_error?_iff.mpr bad)
    exact List.ne_nil_of_mem (List.mem_filterMap.mpr ⟨_, inEvents, errorEq⟩)

theorem Accounts.failure_stays {error : EvalError} (accounts : Accounts workers events pool)
    (runs : Runs workers pool more later) (failed : pool.failure = some error) :
    later.failure = some error := by
  rw [accounts.failure_eq] at failed
  rw [(accounts.run runs).failure_eq, errors_append, List.head?_append, failed]
  rfl

/-! ## The loop of a caller that runs the tasks itself -/

theorem running_submitAll (pool : Pool Task) (tasks : List Task) :
    (pool.submitAll tasks).running = pool.running := by
  induction tasks generalizing pool with
  | nil => rfl
  | cons task tasks ih => exact ih (pool.submit task)

theorem runs_submitAll {place : Nat} {parent : Task} (children : List Task)
    (runs : pool.running[place]? = some parent) :
    Runs workers pool (children.map (.spawned parent)) (pool.submitAll children) := by
  induction children generalizing pool with
  | nil => exact .nil
  | cons child children ih => exact (Step.spawn _ runs child).runs.trans (ih runs)

variable {State : Type} {run : Task → State → TaskResult Task State} {order : Nat → Nat}
  {state last : State}

/-- A step of the loop starts a task, which submits others and ends. -/
theorem runs_of_step (staffed : 0 < workers) (idle : pool.running = [])
    (stepped : pool.step run order state = some (later, last)) :
    ∃ more, Runs workers pool more later ∧ later.running = [] := by
  obtain ⟨⟨task, busy⟩, taken, resultEq⟩ := Option.map_eq_some_iff.mp stepped
  obtain ⟨-, runningEq, -, -⟩ := take?_eq_some taken
  rw [idle] at runningEq
  obtain ⟨ending, outcomeEq⟩ := Ending.exists_outcome_eq (run task state).outcome
  simp only [Prod.mk.injEq] at resultEq
  obtain ⟨rfl, rfl⟩ := resultEq
  rw [← outcomeEq]
  have free : pool.running.length < workers := by simpa [idle] using staffed
  have runs : busy.running[0]? = some task := by simp [runningEq]
  have still : (busy.submitAll (run task state).spawned).running[0]? = some task := by
    rw [running_submitAll, runs]
  refine ⟨_, (Step.start _ free taken).runs.trans
    ((runs_submitAll _ runs).trans (Step.finish _ still ending).runs), ?_⟩
  rw [running_finish, running_submitAll, runningEq]
  rfl

theorem runs_of_drain {fuel : Nat} (staffed : 0 < workers) (idle : pool.running = [])
    (drained : pool.drain run order fuel state = some (later, last)) :
    ∃ more, Runs workers pool more later ∧ later.queue = [] ∧ later.running = [] := by
  induction fuel generalizing pool state with
  | zero =>
      simp only [drain] at drained
      split at drained
      · next empty =>
          cases drained
          exact ⟨[], .nil, by simpa using empty, idle⟩
      · contradiction
  | succ fuel ih =>
      simp only [drain] at drained
      split at drained
      · next stuck =>
          cases drained
          exact ⟨[], .nil, queue_eq_nil_of_step stuck, idle⟩
      · next middle _ stepped =>
          obtain ⟨first, runsFirst, idleNext⟩ := runs_of_step staffed idle stepped
          obtain ⟨others, runsOthers, ended⟩ := ih idleNext drained
          exact ⟨first ++ others, runsFirst.trans runsOthers, ended⟩

/-! ## Every interleaving -/

/-- What a pool guarantees after any events. -/
structure Dependable (workers : Nat) (events : List (Event Task)) (pool : Pool Task) : Prop where
  accounts : Accounts workers events pool
  /-- The count does not fall below zero when a task ends. -/
  counted : ∀ task ending later, Step workers pool (.ended task ending) later →
    later.outstanding + 1 = pool.outstanding
  /-- A caller that waits goes on when everything that was submitted has ended, and not before. -/
  quiescent_iff : pool.isQuiescent = true ↔ pool.queue = [] ∧ pool.running = []
  settled : pool.isQuiescent = true →
    (starts events).Perm (submissions events) ∧ (ends events).Perm (submissions events)
  /-- Until then a task can be started or can end. -/
  goes_on : 0 < workers → pool.isQuiescent = false →
    ∃ event later, event.submission? = none ∧ Step workers pool event later
  failed_iff : pool.hasFailed = true ↔
    ∃ task ending, .ended task ending ∈ events ∧ ending ≠ .completed
  failure_eq : pool.failure = (errors events).head?
  failure_stays : ∀ more later error, Runs workers pool more later → pool.failure = some error →
    later.failure = some error

theorem Accounts.dependable (accounts : Accounts workers events pool) :
    Dependable workers events pool where
  accounts := accounts
  counted := by
    intro task ending later step
    cases step with
    | finish _ runs _ =>
        obtain ⟨inside, -⟩ := List.getElem?_eq_some_iff.mp runs
        rw [outstanding_finish, accounts.outstanding_eq]
        omega
  quiescent_iff := accounts.isQuiescent_iff
  settled := accounts.settled
  goes_on := accounts.exists_step
  failed_iff := accounts.hasFailed_iff
  failure_eq := accounts.failure_eq
  failure_stays _ _ _ runs failed := accounts.failure_stays runs failed

/-- Whatever the interleaving, a pool counts the tasks that have not ended, loses none and starts none
twice, lets a waiting caller go on only when all have ended, and keeps the first failure.  A caller that
runs the tasks itself leaves the pool in such a state. -/
theorem dependable_of_runs (runs : Runs workers {} events pool) :
    Dependable workers events pool ∧
      ∀ {State : Type} (run : Task → State → TaskResult Task State) (order : Nat → Nat) (fuel : Nat)
        (state last : State) (later : Pool Task), 0 < workers → pool.running = [] →
          pool.drain run order fuel state = some (later, last) →
            later.isQuiescent = true ∧ ∃ more, Runs workers pool more later ∧
              Dependable workers (events ++ more) later := by
  have accounts : Accounts workers events pool := by
    simpa using accounts_nil.run runs
  refine ⟨accounts.dependable, ?_⟩
  intro State run order fuel state last later staffed idle drained
  obtain ⟨more, runsMore, noneWaits, noneRuns⟩ := runs_of_drain staffed idle drained
  have accountsLater := accounts.run runsMore
  exact ⟨accountsLater.isQuiescent_iff.mpr ⟨noneWaits, noneRuns⟩, more, runsMore,
    accountsLater.dependable⟩

namespace Sample

/-- A task spawns another one, which panics; then the first one fails. -/
def trace : List (Event Nat) :=
  [.submitted 0, .started 0, .spawned 0 1, .started 1, .ended 1 (.panicked (some "boom")),
    .ended 0 (.failed (.unknownFunction "f"))]

theorem exists_runs : ∃ pool, Runs 2 {} trace pool ∧ pool.running = [] ∧ pool.isQuiescent = true := by
  have submitted : Runs 2 {} [.submitted 0] ({ queue := [0], outstanding := 1 } : Pool Nat) :=
    (Step.submit (by decide) 0).runs
  have started := submitted.snoc (.start 0 (by decide) rfl)
  have spawned := started.snoc (.spawn 0 rfl 1)
  have startedBoth := spawned.snoc (.start 0 (by decide) rfl)
  have panicked := startedBoth.snoc (.finish 0 rfl (.panicked (some "boom")))
  have failed := panicked.snoc (.finish 0 rfl (.failed (.unknownFunction "f")))
  exact ⟨_, failed, rfl, rfl⟩

end Sample

theorem dependable_of_runs_sample :
    ∃ pool, Runs 2 {} Sample.trace pool ∧ Dependable 2 Sample.trace pool ∧
      pool.isQuiescent = true ∧ pool.failure = some (.panicked "boom") := by
  obtain ⟨pool, runs, -, quiescent⟩ := Sample.exists_runs
  have dependable := (dependable_of_runs runs).1
  exact ⟨pool, runs, dependable, quiescent, dependable.failure_eq⟩

end Pool

end Datalog
