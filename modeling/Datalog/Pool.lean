import Datalog.Error

/-!
# Task pools

A pool runs tasks that may submit further tasks.  It counts the tasks that have been submitted and
have not ended; when none is left, everything that the tasks spawned has run as well.  A task that
fails does not stop the others, and it is the first failure that counts.
-/

namespace Datalog

/-- A pool of tasks. -/
structure Pool (Task : Type) (Error : Type := EvalError) where
  /-- The tasks that wait, in the order in which they were submitted. -/
  queue : List Task := []
  /-- The tasks that run, the latest started first. -/
  running : List Task := []
  /-- How many tasks have been submitted and have not ended. -/
  outstanding : Nat := 0
  /-- How many tasks have been started. -/
  started : Nat := 0
  /-- The failures of the tasks that failed, in the order in which they ended. -/
  failures : List Error := []

namespace Pool

variable {Task Error : Type}

/-- Submit a task, from outside or from a running task. -/
def submit (pool : Pool Task Error) (task : Task) : Pool Task Error :=
  { pool with queue := pool.queue ++ [task], outstanding := pool.outstanding + 1 }

def submitAll (pool : Pool Task Error) (tasks : List Task) : Pool Task Error :=
  tasks.foldl submit pool

/-- Take the waiting task at a position, counted around the queue, and start it. -/
def take? (pool : Pool Task Error) (position : Nat) : Option (Task × Pool Task Error) :=
  let place := position % pool.queue.length
  match pool.queue[place]? with
  | none => none
  | some task =>
      some (task,
        { pool with
          queue := pool.queue.eraseIdx place
          running := task :: pool.running
          started := pool.started + 1 })

/-- The failure of the first task that failed. -/
def failure (pool : Pool Task Error) : Option Error :=
  pool.failures.head?

def recordFailure (pool : Pool Task Error) (error : Error) : Pool Task Error :=
  { pool with failures := pool.failures ++ [error] }

/-- The running task at a position ends. -/
def finish (pool : Pool Task Error) (position : Nat) (outcome : Except Error Unit) :
    Pool Task Error :=
  let pool :=
    match outcome with
    | .ok () => pool
    | .error error => pool.recordFailure error
  { pool with
    running := pool.running.eraseIdx position
    outstanding := pool.outstanding - 1 }

def hasFailed (pool : Pool Task Error) : Bool :=
  pool.failure.isSome

/-- Whether a caller that waits for the pool may go on. -/
def isQuiescent (pool : Pool Task Error) : Bool :=
  pool.outstanding = 0

end Pool

/-- What running a task does to a shared state: it ends well or fails, and it submits tasks. -/
structure TaskResult (Task State : Type) (Error : Type := EvalError) where
  outcome : Except Error Unit
  spawned : List Task
  state : State

namespace Pool

variable {Task State Error : Type}

/-- Run one waiting task to its end, if there is one.  The tasks it spawns are submitted before it
ends. -/
def step (run : Task → State → TaskResult Task State Error) (order : Nat → Nat)
    (pool : Pool Task Error) (state : State) : Option (Pool Task Error × State) :=
  (pool.take? (order pool.started)).map fun (task, pool) =>
    let result := run task state
    ((pool.submitAll result.spawned).finish 0 result.outcome, result.state)

/-- Run tasks until none is left.  The order is given by the position of the task to be taken at
each step; nothing is returned if there is work left after as many steps as `fuel` says. -/
def drain (run : Task → State → TaskResult Task State Error) (order : Nat → Nat) :
    (fuel : Nat) → Pool Task Error → State → Option (Pool Task Error × State)
  | 0, pool, state => if pool.queue.isEmpty then some (pool, state) else none
  | fuel + 1, pool, state =>
      match pool.step run order state with
      | none => some (pool, state)
      | some (pool, state) => drain run order fuel pool state

end Pool

end Datalog
