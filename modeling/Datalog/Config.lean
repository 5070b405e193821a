/-!
# Evaluation settings
-/

namespace Datalog

/-- The heuristic that orders the literals of a rule body.  Literals with a higher score come
first, and ties keep the written order. -/
inductive Optimization where
  /-- Literals stay as written and move only while they cannot be evaluated yet. -/
  | asWritten
  /-- The share of bound arguments decides; filters come first, delta literals and atoms without
  arguments have fixed scores. -/
  | boundRatio
  /-- The share of bound arguments decides, without regard to negation or deltas. -/
  | boundRatioPlain
  /-- As `boundRatio`, with a stronger preference for delta literals. -/
  | boundRatioDeltaFirst
  /-- Filters and delta literals come first, everything else stays as written. -/
  | filtersFirst
  deriving DecidableEq, Inhabited

namespace Optimization

/-- The heuristic of a numbered level. -/
def ofLevel? : Nat → Option Optimization
  | 0 => some .asWritten
  | 1 => some .boundRatio
  | 2 => some .boundRatioPlain
  | 3 => some .boundRatioDeltaFirst
  | 4 => some .filtersFirst
  | _ => none

def level : Optimization → Nat
  | .asWritten => 0
  | .boundRatio => 1
  | .boundRatioPlain => 2
  | .boundRatioDeltaFirst => 3
  | .filtersFirst => 4

theorem ofLevel?_level (optimization : Optimization) :
    ofLevel? optimization.level = some optimization := by
  cases optimization <;> rfl

end Optimization

/-- The settings of an evaluation.  Sizes are machine words, because one of them is incremented
and wraps at the top. -/
structure Config where
  /-- The number of worker threads. -/
  parallelism : UInt64 := 4
  /-- Whether every task runs on the calling thread. -/
  sequential : Bool := false
  /-- Whether new tuples trigger rules at once instead of waiting for the next round. -/
  eager : Bool := false
  /-- The heuristic asked for; eager evaluation overrides it. -/
  optimization : Optimization := .asWritten
  /-- The number of facts in a loading batch, and the size up to which a view is scanned whole. -/
  taskSize : UInt64 := 128
  /-- The largest lookup result that is copied out of an index at once. -/
  maxArraySize : UInt64 := 1024
  /-- The number of probes spent on finding the middle of a large view. -/
  numGuesses : UInt64 := 8
  /-- The relations whose tuples are reported after each stratum. -/
  tracked : List String := []

namespace Config

/-- The heuristic in force: eager evaluation needs delta literals first. -/
def effectiveOptimization (config : Config) : Optimization :=
  if config.eager then .filtersFirst else config.optimization

/-- Set the number of worker threads, at least one. -/
def withParallelism (config : Config) (parallelism : UInt64) : Config :=
  { config with parallelism := max parallelism 1 }

/-- Set the batch and scan size, at least one. -/
def withTaskSize (config : Config) (taskSize : UInt64) : Config :=
  { config with taskSize := max taskSize 1 }

end Config

end Datalog
