import Datalog.Proofs.Engine.CallFree
import Datalog.Proofs.Evaluation.Charge
import Mathlib.Algebra.Order.BigOperators.Group.List

/-!
# Evaluation ends

If the rules of a stratum call nothing, only finitely many tuples can be derived: there are finitely many
numbers of terms, and so finitely many tuples of each length.  A pass is paid for by the weight of its
rules and by the tuples that are new, and every round and every sweep but the last one adds a tuple.
-/

namespace Datalog

/-! ## How many tuples there can be -/

/-- The number of tuples that the relations of a scope can have. -/
noncomputable def Scope.size (scope : Scope) : Nat :=
  (scope.symbols.map fun symbol => KeyRange.keyCount symbol.arity).sum

namespace FactStore

variable {store source later : FactStore} {symbols : List RelationSymbol} {scope : Scope}

theorem Valid.total_le (valid : store.Valid) : store.total scope.symbols ≤ scope.size :=
  List.sum_le_sum fun symbol _ => valid.countDistinct_le symbol

theorem Grows.total_le (grown : later.Grows store) (valid : store.Valid)
    (symbols : List RelationSymbol) : store.total symbols ≤ later.total symbols :=
  List.sum_le_sum fun symbol _ => grown.countDistinct_le valid symbol

theorem Valid.total_mergeInto (valid : store.Valid) (sourceValid : source.Valid)
    {counted : List RelationSymbol} (distinct : counted.Nodup)
    (inside : ∀ symbol ∈ symbols, symbol ∈ counted) :
    (FixpointContext.mergeInto source symbols store).2.total counted =
      store.total counted + (FixpointContext.mergeInto source symbols store).1 := by
  induction symbols generalizing store with
  | nil => rfl
  | cons symbol symbols ih =>
      obtain ⟨here, there⟩ := List.forall_mem_cons.mp inside
      have lengths : ∀ tuple ∈ source.tuplesOf symbol, tuple.length = symbol.arity :=
        fun _ member => sourceValid.length_of_mem_tuplesOf member
      have added := valid.addAll lengths
      have counts := total_of_added added distinct here
      have others := ih added.valid there
      simp only [FixpointContext.mergeInto]
      omega

end FactStore

namespace Workspace

variable {scope : Scope} {workspace start : Workspace}

/-- The number of tuples that have been found, whether they are in the main store or collected for the
next round. -/
def found (symbols : List RelationSymbol) (workspace : Workspace) : Nat :=
  workspace.db.total symbols + workspace.nextDelta.total symbols

theorem StoresValid.found_le (valid : workspace.StoresValid) :
    workspace.found scope.symbols ≤ 2 * scope.size := by
  have inMain : workspace.db.total scope.symbols ≤ scope.size := valid.db.total_le
  have collected : workspace.nextDelta.total scope.symbols ≤ scope.size := valid.nextDelta.total_le
  unfold found
  omega

theorem Grows.found_eq {symbols : List RelationSymbol} (grows : workspace.Grows symbols start) :
    workspace.derived + start.found symbols = start.derived + workspace.found symbols := by
  have counted := grows.counted
  unfold found
  omega

theorem Grows.derived_le {symbols : List RelationSymbol} (grows : workspace.Grows symbols start)
    (valid : start.StoresValid) : start.derived ≤ workspace.derived := by
  have balance := grows.found_eq
  have inMain := grows.db.total_le valid.db symbols
  have collected := grows.nextDelta.total_le valid.nextDelta symbols
  unfold found at balance
  omega

theorem StoresValid.derived_le (valid : workspace.StoresValid)
    (grows : workspace.Grows scope.symbols start) :
    workspace.derived ≤ start.derived + 2 * scope.size := by
  have bound : workspace.found scope.symbols ≤ 2 * scope.size := valid.found_le
  have balance := grows.found_eq
  omega

end Workspace

/-! ## Passes -/

theorem Task.totalWeight_append (columns : Nat) (first second : List Task) :
    totalWeight columns (first ++ second) = totalWeight columns first + totalWeight columns second := by
  simp [totalWeight]

theorem Task.totalWeight_perm (columns : Nat) {first second : List Task} (perm : first.Perm second) :
    totalWeight columns first = totalWeight columns second :=
  (perm.map _).sum_eq

namespace Pool

variable {scope : Scope} {start workspace last : Workspace} {pool later : Pool Task TaskError}

/-- While a pass is under way the waiting tasks are in scope and all new tuples are counted. -/
structure Confined (scope : Scope) (start : Workspace) (pool : Pool Task TaskError)
    (workspace : Workspace) : Prop where
  valid : workspace.StoresValid
  grows : workspace.Grows scope.symbols start
  inScope : ∀ task ∈ pool.queue, task.InScope scope

/-- What the waiting tasks can still cost, and the triggers that new tuples can still lead to. -/
noncomputable def potential (scope : Scope) (rate : Nat) (start : Workspace)
    (pool : Pool Task TaskError) (workspace : Workspace) : Nat :=
  Task.totalWeight scope.columns pool.queue +
    rate * (start.derived + 2 * scope.size - workspace.derived)

/-- Tuples that are new pay for more than what is left to other tasks. -/
theorem potential_lt {rate before after cap taken others queued spawned : Nat}
    (weights : taken + others = queued + spawned)
    (covered : spawned + rate * before < taken + rate * after) (more : before ≤ after)
    (bound : after ≤ cap) :
    others + rate * (cap - after) < queued + rate * (cap - before) := by
  obtain ⟨new, rfl⟩ := Nat.exists_eq_add_of_le more
  obtain ⟨left, rfl⟩ := Nat.exists_eq_add_of_le bound
  have before_eq : before + new + left - before = new + left := by omega
  have after_eq : before + new + left - (before + new) = left := by omega
  rw [before_eq, after_eq, Nat.mul_add]
  rw [Nat.mul_add] at covered
  omega

/-- Every step of a pool lowers its potential. -/
theorem Confined.step {context : TaskContext}
    (triggered : ∀ plan ∈ context.strategy.triggered, plan.InScope scope) {task : Task}
    (stepped : Pool.Stepped context.run task pool later workspace last)
    (confined : pool.Confined scope start workspace) :
    later.Confined scope start last ∧
      later.potential scope context.strategy.triggered.length start last <
        pool.potential scope context.strategy.triggered.length start workspace := by
  have paid := context.run_paid triggered (confined.inScope task stepped.taken) confined.valid
  have grows := paid.grows.trans confined.grows
  rw [stepped.state_eq]
  constructor
  · refine ⟨paid.valid, grows, fun other member => ?_⟩
    rcases stepped.after other member with waited | spawned
    · exact confined.inScope other waited
    · exact paid.inScope other spawned
  · have weights := Task.totalWeight_perm scope.columns stepped.perm
    rw [Task.totalWeight_append] at weights
    exact potential_lt weights paid.covered (paid.grows.derived_le confined.valid)
      (paid.valid.derived_le grows)

end Pool

/-- The steps that a pass over some rules takes at most, and the number of passes. -/
noncomputable def Scope.effort (scope : Scope) (rules : Nat) : Nat :=
  rules * (3 ^ KeyRange.keyCount scope.columns + 1) + (rules + 1) * (2 * scope.size) + 1

theorem Task.totalWeight_evaluate (columns : Nat) (rules : List RulePlan) :
    totalWeight columns (rules.map .evaluate) =
      rules.length * (3 ^ KeyRange.keyCount columns + 1) := by
  induction rules with
  | nil => simp [totalWeight]
  | cons rule rules ih =>
      have split : totalWeight columns ((rule :: rules).map .evaluate) =
          3 ^ KeyRange.keyCount columns + 1 + totalWeight columns (rules.map .evaluate) := rfl
      rw [split, ih, List.length_cons, Nat.succ_mul, Nat.add_comm]

namespace FixpointContext

variable {scope : Scope} {context : FixpointContext} {machine : Machine} {rules : List RulePlan}

/-- The plans of a stratum call nothing and derive tuples of a scope. -/
structure InScope (context : FixpointContext) (scope : Scope) : Prop where
  symbols_eq : context.symbols = scope.symbols
  safe : ∀ plan ∈ context.rules, ∃ origin, plan.Safe {} origin
  inScope : ∀ plan ∈ context.rules, plan.InScope scope

/-- There is fuel enough for plans that stay in scope. -/
structure Confined (context : FixpointContext) (scope : Scope) : Prop extends
    context.InScope scope where
  enough : scope.effort context.rules.length ≤ context.fuel

theorem confined_submitAll (idle : machine.pool.queue = []) (valid : machine.workspace.StoresValid)
    (inScope : ∀ plan ∈ rules, plan.InScope scope) :
    (machine.pool.submitAll (rules.map .evaluate)).Confined scope machine.workspace
      machine.workspace := by
  refine ⟨valid, .refl _, fun task member => ?_⟩
  rw [Pool.queue_submitAll, idle, List.nil_append] at member
  obtain ⟨plan, planMember, rfl⟩ := List.mem_map.mp member
  exact inScope plan planMember

theorem runRules_grows {strategy : Strategy} (idle : machine.pool.queue = [])
    (valid : machine.workspace.StoresValid)
    (triggered : ∀ plan ∈ strategy.triggered, plan.InScope scope)
    (inScope : ∀ plan ∈ rules, plan.InScope scope) :
    Leaves (context.runRules strategy rules) machine
      (fun _ later => later.workspace.Grows scope.symbols machine.workspace) fun _ _ => True := by
  apply leaves_runRules (fun stepped confined => (Pool.Confined.step triggered stepped confined).1)
    (confined_submitAll idle valid inScope) trivial
  exact fun pool workspace confined _ => ⟨fun _ => confined.grows, fun _ _ => trivial⟩

/-- A pass ends before the fuel does. -/
theorem runRules_drained {strategy : Strategy} (idle : machine.pool.queue = [])
    (valid : machine.workspace.StoresValid)
    (triggered : ∀ plan ∈ strategy.triggered, plan.InScope scope)
    (inScope : ∀ plan ∈ rules, plan.InScope scope)
    (enough : rules.length * (3 ^ KeyRange.keyCount scope.columns + 1) +
      strategy.triggered.length * (2 * scope.size) ≤ context.fuel) :
    Leaves (context.runRules strategy rules) machine (fun _ _ => True)
      fun stop _ => stop ≠ .outOfFuel := by
  let tasks : TaskContext :=
    { functions := context.functions, strategy, taskSize := context.taskSize }
  let pool := machine.pool.submitAll (rules.map .evaluate)
  have bound : pool.potential scope strategy.triggered.length machine.workspace
      machine.workspace ≤ context.fuel := by
    rw [Pool.potential, Pool.queue_submitAll, idle, List.nil_append, Task.totalWeight_evaluate,
      Nat.add_sub_cancel_left]
    exact enough
  have drains : ∃ later last, pool.drain tasks.run context.schedule.order context.fuel
      machine.workspace = some (later, last) :=
    Pool.exists_drained_of_potential _ (Pool.Confined.step triggered)
      (confined_submitAll idle valid inScope) bound
  obtain ⟨later, last, drained⟩ := drains
  unfold runRules
  rw [leaves_bind, leaves_get]
  dsimp only
  simp only [tasks, pool] at drained
  rw [drained, leaves_bind, leaves_set]
  split
  · exact Stop.noConfusion
  · trivial

/-- Rules that call nothing are run to the end or stop for lack of fuel. -/
theorem runRules_counts {strategy : Strategy} (alone : strategy.Alone rules)
    (triggered : ∀ plan ∈ strategy.triggered, plan.InScope scope)
    (inScope : ∀ plan ∈ rules, plan.InScope scope) (inOrder : machine.InOrder {}) :
    Leaves (context.runRules strategy rules) machine
      (fun _ later => later.InOrder {} ∧
        later.workspace.Grows scope.symbols machine.workspace)
      fun stop _ => stop = .outOfFuel := by
  have safe : Leaves ((context.calling {}).runRules strategy rules) machine
      (fun _ later => later.InOrder {}) (Machine.StoppedByCall {}) :=
    runRules_safe alone.triggerable alone.safe inOrder
  have grows : Leaves ((context.calling {}).runRules strategy rules) machine
      (fun _ later => later.workspace.Grows scope.symbols machine.workspace) fun _ _ => True :=
    runRules_grows inOrder.idle inOrder.stores triggered inScope
  have counts : Leaves ((context.calling {}).runRules strategy rules) machine
      (fun _ later => later.InOrder {} ∧
        later.workspace.Grows scope.symbols machine.workspace)
      fun stop _ => stop = .outOfFuel := by
    refine (safe.and grows).mono (fun _ _ both => both) ?_
    rintro stop later ⟨⟨-, raises⟩, -⟩
    cases stop with
    | outOfFuel => rfl
    | failed error => exact absurd (raises error rfl) (Registry.not_raises_empty error)
  unfold Leaves at counts ⊢
  rwa [runRules_eq_of_alone alone inOrder]

theorem runRules_ends {strategy : Strategy} (alone : strategy.Alone rules)
    (triggered : ∀ plan ∈ strategy.triggered, plan.InScope scope)
    (inScope : ∀ plan ∈ rules, plan.InScope scope)
    (enough : rules.length * (3 ^ KeyRange.keyCount scope.columns + 1) +
      strategy.triggered.length * (2 * scope.size) ≤ context.fuel)
    (inOrder : machine.InOrder {}) :
    Leaves (context.runRules strategy rules) machine
      (fun _ later => later.InOrder {} ∧
        later.workspace.Grows scope.symbols machine.workspace)
      fun _ _ => False :=
  ((runRules_counts alone triggered inScope inOrder).and
    (runRules_drained inOrder.idle inOrder.stores triggered inScope enough)).mono
      (fun _ _ both => both.1) fun _ _ both => both.2 both.1

/-! ## Rounds -/

theorem length_deltaRules_le (context : FixpointContext) :
    context.deltaRules.length ≤ context.rules.length :=
  List.length_filter_le _ _

/-- There is fuel for a pass, whichever rules of the stratum it starts with. -/
theorem Confined.enough_pass (confined : context.Confined scope) {count rate : Nat}
    (few : count ≤ context.rules.length) (rateFew : rate ≤ context.rules.length) :
    count * (3 ^ KeyRange.keyCount scope.columns + 1) + rate * (2 * scope.size) ≤ context.fuel := by
  have weights := Nat.mul_le_mul_right (3 ^ KeyRange.keyCount scope.columns + 1) few
  have rateLe : rate ≤ context.rules.length + 1 := by omega
  have triggers := Nat.mul_le_mul_right (2 * scope.size) rateLe
  have enough := confined.enough
  unfold Scope.effort at enough
  omega

theorem Confined.enough_passes (confined : context.Confined scope) :
    2 * scope.size < context.fuel := by
  have oneLe : 1 ≤ context.rules.length + 1 := Nat.le_add_left 1 _
  have once := Nat.mul_le_mul_right (2 * scope.size) oneLe
  have enough := confined.enough
  unfold Scope.effort at enough
  omega

theorem round_leaves_total {stopped : Stop → Machine → Prop}
    (symbolsEq : context.symbols = scope.symbols) (inOrder : machine.InOrder {})
    (ran : ∀ {start : Machine}, start.InOrder {} →
      Leaves (context.runRules .rounds rules) start
        (fun _ later => later.InOrder {} ∧ later.workspace.Grows scope.symbols start.workspace)
        stopped) :
    Leaves (context.round rules) machine
      (fun added later => later.InOrder {} ∧
        machine.workspace.db.total scope.symbols + added ≤ later.workspace.db.total scope.symbols)
      stopped := by
  unfold round
  rw [leaves_bind, updateWorkspace, leaves_modifyGet]
  dsimp only
  let start : Machine := { machine with workspace := { machine.workspace with derived := 0 } }
  have startInOrder : start.InOrder {} := inOrder.withWorkspace { inOrder.stores with }
  refine (ran startInOrder).bind ?_
  rintro _ later ⟨laterInOrder, grows⟩
  rw [updateWorkspace, leaves_modifyGet]
  refine ⟨laterInOrder.withWorkspace laterInOrder.stores.merge, ?_⟩
  have merged := laterInOrder.stores.db.total_mergeInto laterInOrder.stores.nextDelta
    scope.symbols_nodup fun symbol (member : symbol ∈ context.symbols) => symbolsEq ▸ member
  have grown := grows.db.total_le inOrder.stores.db scope.symbols
  change _ + (mergeInto later.workspace.nextDelta context.symbols later.workspace.db).1 ≤
    (mergeInto later.workspace.nextDelta context.symbols later.workspace.db).2.total scope.symbols
  rw [merged]
  exact Nat.add_le_add_right grown _

theorem InScope.alone (inScope : context.InScope scope)
    (fromRules : ∀ plan ∈ rules, plan ∈ context.rules) : Strategy.rounds.Alone rules :=
  alone_rounds fun plan member => inScope.safe plan (fromRules plan member)

theorem round_ends (confined : context.Confined scope)
    (fromRules : ∀ plan ∈ rules, plan ∈ context.rules) (few : rules.length ≤ context.rules.length)
    (inOrder : machine.InOrder {}) :
    Leaves (context.round rules) machine
      (fun added later => later.InOrder {} ∧
        machine.workspace.db.total scope.symbols + added ≤ later.workspace.db.total scope.symbols)
      fun _ _ => False :=
  round_leaves_total confined.symbols_eq inOrder <|
    runRules_ends (confined.alone fromRules) (by simp [Strategy.triggered])
      (fun plan member => confined.inScope plan (fromRules plan member))
      (confined.enough_pass few (Nat.zero_le _))

theorem rounds_count (inScope : context.InScope scope) {fuel : Nat}
    (fromRules : ∀ plan ∈ rules, plan ∈ context.rules) (inOrder : machine.InOrder {}) :
    Leaves (context.rounds fuel rules) machine
      (fun counts later => later.InOrder {} ∧
        machine.workspace.db.total scope.symbols + counts.foldr (· + ·) 0 ≤
          later.workspace.db.total scope.symbols)
      fun _ _ => True := by
  induction fuel generalizing rules machine with
  | zero => trivial
  | succ fuel ih =>
      unfold rounds
      have first : Leaves (context.round rules) machine _ _ :=
        round_leaves_total inScope.symbols_eq inOrder <|
          runRules_counts (inScope.alone fromRules) (by simp [Strategy.triggered])
            fun plan member => inScope.inScope plan (fromRules plan member)
      apply (first.mono (fun _ _ done => done) fun _ _ _ => trivial).bind
      rintro added middle ⟨middleInOrder, grown⟩
      split
      · next isZero => exact ⟨middleInOrder, by simpa [isZero] using grown⟩
      · have others : Leaves (context.rounds fuel context.deltaRules) middle _ _ :=
          ih (fun _ member => List.mem_of_mem_filter member) middleInOrder
        refine others.bind fun counts last done => ⟨done.1, ?_⟩
        have total := done.2
        simp only [List.foldr_cons]
        omega

theorem evaluateRounds_counts (inScope : context.InScope scope) (rank : Nat)
    (inOrder : machine.InOrder {}) :
    Leaves (context.evaluateRounds rank) machine
      (fun stats later => later.InOrder {} ∧
        machine.workspace.db.total scope.symbols + stats.derived ≤
          later.workspace.db.total scope.symbols)
      fun _ _ => True := by
  unfold evaluateRounds
  rw [leaves_bind, updateWorkspace, leaves_modifyGet]
  dsimp only
  let start : Machine := { machine with workspace := context.seed machine.workspace }
  have ran : Leaves (context.rounds context.fuel context.rules) start _ _ :=
    rounds_count inScope (fun _ member => member) (inOrder.withWorkspace inOrder.stores.seed)
  refine ran.bind fun counts later done => ?_
  rw [leaves_bind, updateWorkspace, leaves_modifyGet]
  exact ⟨done.1.withWorkspace { done.1.stores with delta := done.1.stores.delta.clear }, done.2⟩

/-- Rounds end, as each but the last one adds a tuple. -/
theorem rounds_end (confined : context.Confined scope) {fuel : Nat}
    (fromRules : ∀ plan ∈ rules, plan ∈ context.rules) (few : rules.length ≤ context.rules.length)
    (inOrder : machine.InOrder {})
    (enough : scope.size < fuel + machine.workspace.db.total scope.symbols) :
    Leaves (context.rounds fuel rules) machine (fun _ later => later.InOrder {})
      fun _ _ => False := by
  induction fuel generalizing rules machine with
  | zero =>
      have full : machine.workspace.db.total scope.symbols ≤ scope.size :=
        inOrder.stores.db.total_le
      omega
  | succ fuel ih =>
      unfold rounds
      refine (round_ends confined fromRules few inOrder).bind ?_
      rintro added middle ⟨middleInOrder, grown⟩
      split
      · exact middleInOrder
      · have others : Leaves (context.rounds fuel context.deltaRules) middle _ _ :=
          ih (fun _ member => List.mem_of_mem_filter member)
            (context.length_deltaRules_le) middleInOrder (by omega)
        exact others.bind fun _ _ ended => ended

theorem evaluateRounds_ends (confined : context.Confined scope) (rank : Nat)
    (inOrder : machine.InOrder {}) :
    Leaves (context.evaluateRounds rank) machine (fun _ later => later.InOrder {})
      fun _ _ => False := by
  unfold evaluateRounds
  rw [leaves_bind, updateWorkspace, leaves_modifyGet]
  dsimp only
  have passes := confined.enough_passes
  let start : Machine := { machine with workspace := context.seed machine.workspace }
  have ran : Leaves (context.rounds context.fuel context.rules) start _ _ :=
    rounds_end confined (fun _ member => member) (Nat.le_refl _)
      (inOrder.withWorkspace inOrder.stores.seed) (by omega)
  refine ran.bind fun _ later laterInOrder => ?_
  rw [leaves_bind, updateWorkspace, leaves_modifyGet]
  exact laterInOrder.withWorkspace
    { laterInOrder.stores with delta := laterInOrder.stores.delta.clear }

/-! ## Sweeps -/

section Eager

variable (triggerable : ∀ plan ∈ context.deltaRules, plan.Triggerable {})

include triggerable

/-- A pass finds the tuples that it counts. -/
theorem pass_ends (confined : context.Confined scope)
    (fromRules : ∀ plan ∈ rules, plan ∈ context.rules) (few : rules.length ≤ context.rules.length)
    (inOrder : machine.InOrder {}) :
    Leaves (context.pass rules) machine
      (fun added later => later.InOrder {} ∧
        machine.workspace.found scope.symbols + added = later.workspace.found scope.symbols)
      fun _ _ => False := by
  unfold pass
  rw [leaves_bind, leaves_get]
  have alone : (Strategy.eager context.deltaRules).Alone rules :=
    ⟨fun plan member => confined.safe plan (fromRules plan member), triggerable⟩
  have ran : Leaves (context.runRules (.eager context.deltaRules) rules) machine _ _ :=
    runRules_ends alone
      (fun plan member => confined.inScope plan (List.mem_of_mem_filter member))
      (fun plan member => confined.inScope plan (fromRules plan member))
      (confined.enough_pass few (context.length_deltaRules_le)) inOrder
  refine ran.bind ?_
  rintro _ later ⟨laterInOrder, grows⟩
  rw [leaves_bind, leaves_get]
  refine ⟨laterInOrder, ?_⟩
  have balance := grows.found_eq
  have more := grows.derived_le inOrder.stores
  omega

/-- Sweeps end, as each but the last one finds a tuple. -/
theorem sweeps_end (confined : context.Confined scope) {fuel : Nat} (inOrder : machine.InOrder {})
    (enough : 2 * scope.size < fuel + machine.workspace.found scope.symbols) :
    Leaves (context.sweeps fuel) machine (fun _ later => later.InOrder {}) fun _ _ => False := by
  induction fuel generalizing machine with
  | zero =>
      have full : machine.workspace.found scope.symbols ≤ 2 * scope.size :=
        inOrder.stores.found_le
      omega
  | succ fuel ih =>
      unfold sweeps
      refine (pass_ends triggerable confined (fun _ member => List.mem_of_mem_filter member)
        (context.length_deltaRules_le) inOrder).bind ?_
      rintro added middle ⟨middleInOrder, grown⟩
      split
      · exact middleInOrder
      · exact (ih middleInOrder (by omega)).bind fun _ _ ended => ended

theorem evaluateEagerly_ends (confined : context.Confined scope) (rank : Nat)
    (inOrder : machine.InOrder {}) :
    Leaves (context.evaluateEagerly rank) machine (fun _ later => later.InOrder {})
      fun _ _ => False := by
  unfold evaluateEagerly
  rw [leaves_bind, updateWorkspace, leaves_modifyGet]
  dsimp only
  have passes := confined.enough_passes
  let start : Machine := { machine with workspace := { machine.workspace with derived := 0 } }
  have startInOrder : start.InOrder {} := inOrder.withWorkspace { inOrder.stores with }
  have first : Leaves (context.pass context.rules) start _ _ :=
    pass_ends triggerable confined (fun _ member => member) (Nat.le_refl _) startInOrder
  refine first.bind ?_
  rintro _ middle ⟨middleInOrder, -⟩
  have others : Leaves (context.sweeps context.fuel) middle _ _ :=
    sweeps_end triggerable confined middleInOrder (by omega)
  refine others.bind fun _ _ ended => ?_
  rw [leaves_bind, leaves_get]
  exact ended

end Eager

end FixpointContext

/-! ## Strata -/

namespace RulePlan

/-- The number of columns of the relation that a literal scans. -/
def scanWidth : PlanLiteral → Nat
  | .scan atom => atom.symbol.arity
  | _ => 0

/-- No relation that one of some plans scans has more columns. -/
def widths (plans : List RulePlan) : Nat :=
  ((plans.flatMap (·.body)).map scanWidth).sum

theorem arity_le_widths {plans : List RulePlan} {plan : RulePlan} {atom : PlanAtom}
    (member : plan ∈ plans) (inBody : .scan atom ∈ plan.body) :
    atom.symbol.arity ≤ widths plans :=
  List.le_sum_of_mem
    (List.mem_map_of_mem (f := scanWidth) (List.mem_flatMap.mpr ⟨plan, member, inBody⟩))

end RulePlan

namespace Evaluation

variable {program : Program} {functions : Registry} {config : Config} {schedule : Schedule}
  {strata : List Stratum} {resources : Planner.Resources} {evaluation start later : Evaluation}
  {stratum : Stratum} {fuel : Nat}

/-- The plans of a stratum whose rules call nothing stay in scope, and some fuel is enough. -/
theorem SetUp.exists_confined
    (setUp : SetUp program strata functions config schedule resources evaluation)
    (layers : program.Layers strata) (wellFormed : program.WellFormed)
    (noCall : ∀ rule ∈ program.rules, rule.CallFree) (member : stratum ∈ strata) :
    ∃ scope enough, ∀ fuel, enough ≤ fuel →
      (evaluation.fixpointContext fuel stratum).Confined scope := by
  let plans := stratum.symbols.flatMap evaluation.plansFor
  let scope : Scope :=
    { symbols := stratum.symbols
      symbols_nodup := layers.nodup stratum member
      columns := RulePlan.widths plans }
  have safe : ∀ plan ∈ plans, ∃ origin, plan.Safe {} origin := fun plan planMember =>
    (setUp.safe_of_callFree layers wellFormed noCall member planMember).1
  have inScope : ∀ plan ∈ plans, plan.InScope scope := by
    intro plan planMember
    obtain ⟨rule, ruleMember, variant, isVariant, planned⟩ :=
      setUp.plan_of_mem layers.separate member planMember
    obtain ⟨origin, planSafe⟩ := safe plan planMember
    refine ⟨?_, ?_, fun atom inBody => RulePlan.arity_le_widths planMember inBody⟩
    · rw [RulePlan.headSymbol, planned.head_eq isVariant]
      exact (Program.mem_rulesOf.mp ruleMember).2
    · exact planSafe.made.head.represents.length_eq.trans planSafe.head_length
  exact ⟨scope, scope.effort plans.length, fun fuel enough => ⟨⟨rfl, safe, inScope⟩, enough⟩⟩

theorem exists_enough {holds : Nat → Stratum → Prop} {strata : List Stratum}
    (each : ∀ stratum ∈ strata, ∃ enough, ∀ fuel, enough ≤ fuel → holds fuel stratum) :
    ∃ enough, ∀ fuel, enough ≤ fuel → ∀ stratum ∈ strata, holds fuel stratum := by
  induction strata with
  | nil => exact ⟨0, by simp⟩
  | cons stratum strata ih =>
      obtain ⟨here, there⟩ := List.forall_mem_cons.mp each
      obtain ⟨first, isFirst⟩ := here
      obtain ⟨others, areOthers⟩ := ih there
      refine ⟨max first others, fun fuel enough => List.forall_mem_cons.mpr ⟨?_, ?_⟩⟩
      · exact isFirst fuel (by omega)
      · exact areOthers fuel (by omega)

theorem runStratum_ends
    (setUp : SetUp program strata functions config schedule resources evaluation)
    (layers : program.Layers strata) (wellFormed : program.WellFormed)
    (noCall : ∀ rule ∈ program.rules, rule.CallFree) (member : stratum ∈ strata)
    {scope : Scope} (confined : (evaluation.fixpointContext fuel stratum).Confined scope)
    (inOrder : InOrder {} evaluation start) :
    Leaves (runStratum fuel stratum) start (fun _ later => InOrder {} evaluation later)
      fun _ _ => False := by
  rw [← inOrder.context_eq fuel stratum] at confined
  have evaluated : Leaves
      (if start.config.eager then
        (start.fixpointContext fuel stratum).evaluateEagerly stratum.rank
      else
        (start.fixpointContext fuel stratum).evaluateRounds stratum.rank) start.machine
      (fun _ later => later.InOrder {}) fun _ _ => False := by
    split
    · next eager =>
        rw [inOrder.config_eq, setUp.config_eq] at eager
        refine FixpointContext.evaluateEagerly_ends (fun plan isDelta => ?_) confined _
          inOrder.machine
        have isRule := List.mem_of_mem_filter isDelta
        rw [inOrder.context_eq] at isRule
        obtain ⟨safe, deltaFirst⟩ :=
          setUp.safe_of_callFree layers wellFormed noCall member isRule
        exact ⟨safe, deltaFirst eager⟩
    · exact FixpointContext.evaluateRounds_ends confined _ inOrder.machine
  unfold runStratum
  rw [leaves_bind, leaves_get]
  refine ((leaves_ofRunM evaluated).mono (fun _ _ done => done) ?_).bind ?_
  · rintro stop _ ⟨machine, rfl, never⟩
    exact never
  · rintro stats _ ⟨machine, rfl, ended⟩
    exact { inOrder.withMachine ended with }

theorem runStrata_ends
    (setUp : SetUp program strata functions config schedule resources evaluation)
    (layers : program.Layers strata) (wellFormed : program.WellFormed)
    (noCall : ∀ rule ∈ program.rules, rule.CallFree) {chosen : List Stratum}
    (members : ∀ stratum ∈ chosen, stratum ∈ strata)
    (confined : ∀ stratum ∈ chosen, ∃ scope,
      (evaluation.fixpointContext fuel stratum).Confined scope)
    (inOrder : InOrder {} evaluation start) :
    Leaves (runStrata fuel chosen) start (fun _ later => InOrder {} evaluation later)
      fun _ _ => False := by
  induction chosen generalizing start with
  | nil => exact inOrder
  | cons stratum chosen ih =>
      obtain ⟨here, there⟩ := List.forall_mem_cons.mp members
      obtain ⟨⟨scope, confinedHere⟩, confinedThere⟩ := List.forall_mem_cons.mp confined
      refine (runStratum_ends setUp layers wellFormed noCall here confinedHere inOrder).bind ?_
      intro stats middle middleInOrder
      exact (ih there confinedThere middleInOrder).bind fun _ _ ended => ended

/-- An evaluation of rules that call nothing ends, given enough fuel. -/
theorem exists_run_eq_ok
    (setUp : SetUp program strata functions config schedule resources evaluation)
    (layers : program.Layers strata) (wellFormed : program.WellFormed)
    (noCall : ∀ rule ∈ program.rules, rule.CallFree) :
    ∃ enough, ∀ fuel, enough ≤ fuel → ∃ stats later, run fuel evaluation = .ok stats later := by
  obtain ⟨enough, confined⟩ : ∃ enough, ∀ fuel, enough ≤ fuel → ∀ stratum ∈ strata,
      ∃ scope, (evaluation.fixpointContext fuel stratum).Confined scope := by
    refine exists_enough fun stratum member => ?_
    obtain ⟨scope, enough, confined⟩ := setUp.exists_confined layers wellFormed noCall member
    exact ⟨enough, fun fuel bound => ⟨scope, confined fuel bound⟩⟩
  refine ⟨enough, fun fuel bound => ?_⟩
  have ended := runStrata_ends setUp layers wellFormed noCall (fun _ member => member)
    (confined fuel bound) (setUp.inOrder wellFormed {})
  have ran : Leaves (run fuel) evaluation (fun _ _ => True) fun _ _ => False := by
    unfold run
    rw [leaves_bind, leaves_get, setUp.stats_eq, setUp.strata_eq]
    exact ended.bind fun _ _ _ => trivial
  unfold Leaves at ran
  split at ran
  · next stats later outcome => exact ⟨stats, later, outcome⟩
  · exact ran.elim

end Evaluation

end Datalog
