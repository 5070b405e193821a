import Datalog.Proofs.Safety.Stores
import Datalog.Proofs.Store.Extent

/-!
# What a task costs

A task may leave work to further tasks, but no more than its weight allows: a view splits into views
that extend less far, and every rule that is triggered is paid for by a tuple that is new.  So the weight
of the tasks that wait goes down unless tuples are added.
-/

namespace Datalog

/-- The relations that rules derive, and the widest relation that they may scan. -/
structure Scope where
  symbols : List RelationSymbol
  symbols_nodup : symbols.Nodup
  columns : Nat

variable {scope : Scope} {rate budget : Nat}

/-- A plan derives tuples of relations in scope, and the relations that it scans are not too wide. -/
structure RulePlan.InScope (scope : Scope) (plan : RulePlan) : Prop where
  head_symbol : plan.headSymbol ∈ scope.symbols
  head_length : plan.head.length = plan.headSymbol.arity
  narrow : ∀ atom, .scan atom ∈ plan.body → atom.symbol.arity ≤ scope.columns

namespace Task

def InScope (scope : Scope) : Task → Prop
  | .load .. => False
  | .evaluate plan | .scan plan .. | .trigger plan _ => plan.InScope scope

/-- More than a task can leave to others without adding a tuple. -/
noncomputable def weight (columns : Nat) : Task → Nat
  | .load .. | .trigger .. => 1
  | .evaluate _ => 3 ^ KeyRange.keyCount columns + 1
  | .scan _ _ _ view => 3 ^ view.extent columns

noncomputable def totalWeight (columns : Nat) (tasks : List Task) : Nat :=
  (tasks.map (weight columns)).sum

end Task

/-! ## Charges -/

/-- A task has gone on: what it added has been counted, and what it left to others is covered by the
tuples that are new and by a budget. -/
structure TaskState.Charged (scope : Scope) (rate budget : Nat) (later earlier : TaskState) :
    Prop where
  valid : later.workspace.StoresValid
  grows : later.workspace.Grows scope.symbols earlier.workspace
  inScope : ∀ task ∈ later.spawned, task ∈ earlier.spawned ∨ task.InScope scope
  covered : Task.totalWeight scope.columns later.spawned + rate * earlier.workspace.derived ≤
    Task.totalWeight scope.columns earlier.spawned + rate * later.workspace.derived + budget

namespace TaskState.Charged

variable {first second third : TaskState} {more : Nat}

theorem refl (valid : first.workspace.StoresValid) : first.Charged scope rate 0 first :=
  ⟨valid, .refl _, fun _ member => .inl member, Nat.le_refl _⟩

theorem trans (right : third.Charged scope rate more second)
    (left : second.Charged scope rate budget first) :
    third.Charged scope rate (budget + more) first where
  valid := right.valid
  grows := right.grows.trans left.grows
  inScope task member := (right.inScope task member).elim (left.inScope task) .inr
  covered := by
    have := right.covered
    have := left.covered
    omega

theorem mono (charged : second.Charged scope rate budget first) (enough : budget ≤ more) :
    second.Charged scope rate more first :=
  { charged with covered := charged.covered.trans (Nat.add_le_add_left enough _) }

theorem withBindings (valid : first.workspace.StoresValid) {bindings : Bindings}
    (grown : bindings.terms.Extends first.workspace.terms) :
    (first.withBindings bindings).Charged scope rate 0 first :=
  ⟨{ valid with }, Workspace.grows_withTerms grown, fun _ member => .inl member, Nat.le_refl _⟩

theorem spawn (rate : Nat) (valid : first.workspace.StoresValid) (task : Task)
    (inScope : task.InScope scope) :
    ({ first with spawned := first.spawned ++ [task] } : TaskState).Charged scope rate
      (task.weight scope.columns) first := by
  refine ⟨valid, .refl _, fun other member => ?_, ?_⟩
  · rcases List.mem_append.mp member with before | here
    · exact .inl before
    · exact .inr (List.mem_singleton.mp here ▸ inScope)
  · simp only [Task.totalWeight, List.map_append, List.map_cons, List.map_nil, List.sum_append,
      List.sum_cons, List.sum_nil]
    omega

end TaskState.Charged

/-- A step leaves nothing to other tasks that is not covered by new tuples. -/
def Charges {α : Type} (scope : Scope) (rate : Nat) (step : TaskM α) : Prop :=
  ∀ state : TaskState, state.workspace.StoresValid →
    Leaves step state (fun _ later => later.Charged scope rate 0 state)
      fun _ later => later.Charged scope rate 0 state

namespace Charges

variable {α β : Type}

theorem pure {value : α} : Charges scope rate (pure value : TaskM α) :=
  fun _ valid => .refl valid

theorem throw {error : TaskError} : Charges scope rate (throw error : TaskM α) :=
  fun _ valid => .refl valid

theorem andThen {first : TaskM α} {next : α → TaskM β} {state : TaskState}
    {middle : α → TaskState → Prop}
    (charged : Leaves first state
      (fun value later => later.Charged scope rate 0 state ∧ middle value later)
      fun _ later => later.Charged scope rate 0 state)
    (nextCharged : ∀ value later, later.workspace.StoresValid → middle value later →
      Leaves (next value) later (fun _ last => last.Charged scope rate budget later)
        fun _ last => last.Charged scope rate budget later) :
    Leaves (first >>= next) state (fun _ last => last.Charged scope rate budget state)
      fun _ last => last.Charged scope rate budget state := by
  rw [leaves_bind]
  refine charged.mono ?_ fun _ _ stopped => stopped.mono (Nat.zero_le _)
  rintro value later ⟨laterCharged, isMiddle⟩
  refine (nextCharged value later laterCharged.valid isMiddle).mono ?_ ?_
  · exact fun _ _ done => (done.trans laterCharged).mono (Nat.zero_add _).le
  · exact fun _ _ stopped => (stopped.trans laterCharged).mono (Nat.zero_add _).le

theorem before {first : TaskM α} {next : α → TaskM β} (charges : Charges scope rate first)
    {state : TaskState} (valid : state.workspace.StoresValid)
    (nextCharged : ∀ value (later : TaskState), later.workspace.StoresValid →
      Leaves (next value) later (fun _ last => last.Charged scope rate budget later)
        fun _ last => last.Charged scope rate budget later) :
    Leaves (first >>= next) state (fun _ last => last.Charged scope rate budget state)
      fun _ last => last.Charged scope rate budget state :=
  andThen ((charges state valid).mono (fun _ _ charged => ⟨charged, charged.valid⟩)
    fun _ _ stopped => stopped) fun value later _ laterValid => nextCharged value later laterValid

theorem bind {first : TaskM α} {next : α → TaskM β} (charges : Charges scope rate first)
    (nextCharges : ∀ value, Charges scope rate (next value)) :
    Charges scope rate (first >>= next) := fun _ valid =>
  charges.before valid nextCharges

theorem get_bind {next : TaskState → TaskM β} (charges : ∀ state, Charges scope rate (next state)) :
    Charges scope rate (get >>= next) :=
  .bind (fun _ valid => .refl valid) charges

theorem ite {condition : Prop} [Decidable condition] {first second : TaskM α}
    (charges : Charges scope rate first) (charges' : Charges scope rate second) :
    Charges scope rate (if condition then first else second) := by
  split
  · exact charges
  · exact charges'

theorem ofBindM {computation : BindM α} (interns : Interns computation) :
    Charges scope rate (TaskM.ofBindM computation) := by
  intro state valid
  have grown : Leaves computation state.bindings _ _ := interns state.bindings
  refine (TaskM.leaves_ofBindM grown).mono ?_ ?_
  · rintro _ _ ⟨bindings, rfl, extends'⟩
    exact .withBindings valid extends'
  · rintro _ _ ⟨bindings, rfl, extends'⟩
    exact .withBindings valid extends'

theorem setSubstitution (substitution : Substitution) :
    Charges scope rate (TaskM.setSubstitution substitution) :=
  fun _ valid => ⟨valid, .refl _, fun _ member => .inl member, Nat.le_refl _⟩

theorem undoing {step : TaskM Unit} (charges : Charges scope rate step) :
    Charges scope rate (TaskM.undoing step) :=
  .get_bind fun _ => .bind charges fun _ _ valid =>
    ⟨valid, .refl _, fun _ member => .inl member, Nat.le_refl _⟩

end Charges

/-! ## Reports -/

theorem PlanTerm.length_evalList (functions : Registry) (plans : List PlanTerm)
    (bindings : Bindings) :
    Leaves (evalList functions plans) bindings (fun ids _ => ids.length = plans.length)
      fun _ _ => True := by
  induction plans generalizing bindings with
  | nil =>
      unfold evalList
      exact rfl
  | cons plan plans ih =>
      have first : Leaves (plan.eval functions) bindings (fun _ _ => True) fun _ _ => True := by
        unfold Leaves
        split <;> trivial
      unfold evalList
      refine first.bind fun id middle _ => (ih middle).bind fun ids later length => ?_
      exact congrArg (· + 1) length

namespace Workspace

variable {workspace : Workspace} {symbol : RelationSymbol} {tuple : Tuple}
  {symbols : List RelationSymbol}

/-- Storing a tuple has been charged once the tuple is counted. -/
structure StoredOnce (symbols : List RelationSymbol) (result : Bool × Workspace)
    (workspace : Workspace) : Prop where
  valid : result.2.StoresValid
  grows : (afterStoring result).Grows symbols workspace
  derived_eq : result.2.derived = workspace.derived

theorem StoresValid.collect_once (valid : workspace.StoresValid) (distinct : symbols.Nodup)
    (member : symbol ∈ symbols) (length : tuple.length = symbol.arity) :
    StoredOnce symbols (workspace.collect symbol tuple) workspace := by
  refine ⟨valid.collect length, ?_, ?_⟩
  · unfold Workspace.collect
    split
    · exact .refl workspace
    · have added := (valid.nextDelta.add length).1
      have counted := FactStore.total_of_added added distinct member
      generalize workspace.nextDelta.add symbol tuple = result at added counted
      obtain ⟨isNew, nextDelta⟩ := result
      cases isNew <;> refine ⟨.refl _, .refl _, rfl, added.grows, ?_⟩ <;>
        simp only [afterStoring, countDerived, Bool.false_eq_true, if_true, if_false] at counted ⊢ <;>
          omega
  · unfold Workspace.collect
    split <;> rfl

theorem StoresValid.store_once (valid : workspace.StoresValid) (distinct : symbols.Nodup)
    (member : symbol ∈ symbols) (length : tuple.length = symbol.arity) :
    StoredOnce symbols (workspace.store symbol tuple) workspace := by
  refine ⟨valid.store length, ?_, rfl⟩
  have added := (valid.db.add length).1
  have counted := FactStore.total_of_added added distinct member
  unfold Workspace.store
  generalize workspace.db.add symbol tuple = result at added counted
  obtain ⟨isNew, db⟩ := result
  cases isNew <;> refine ⟨.refl _, added.grows, rfl, .refl _, ?_⟩ <;>
    simp only [afterStoring, countDerived, Bool.false_eq_true, if_true, if_false] at counted ⊢ <;>
      omega

end Workspace

namespace TaskContext

variable {context : TaskContext} {plan : RulePlan} {state : TaskState}

theorem triggerRules_charged (rate : Nat) {symbol : RelationSymbol} {tuple : Tuple} {rules : List RulePlan}
    (inScope : ∀ plan ∈ rules, plan.InScope scope) (valid : state.workspace.StoresValid) :
    Leaves (triggerRules symbol tuple rules) state
      (fun _ later => later.Charged scope rate rules.length state)
      fun _ later => later.Charged scope rate rules.length state := by
  induction rules generalizing state with
  | nil => exact .refl valid
  | cons rule rules ih =>
      obtain ⟨here, there⟩ := List.forall_mem_cons.mp inScope
      unfold triggerRules
      split
      · have spawned : TaskState.Charged scope rate 1
            { state with spawned := state.spawned ++ [.trigger rule tuple] } state :=
          .spawn rate valid (.trigger rule tuple) here
        rw [leaves_bind, TaskM.spawn, leaves_modify]
        refine (ih there spawned.valid).mono ?_ ?_
        · exact fun _ _ done => (done.trans spawned).mono (Nat.add_comm _ _).le
        · exact fun _ _ stopped => (stopped.trans spawned).mono (Nat.add_comm _ _).le
      · refine (ih there valid).mono ?_ ?_
        · exact fun _ _ done => done.mono (Nat.le_succ _)
        · exact fun _ _ stopped => stopped.mono (Nat.le_succ _)

variable (triggered : ∀ plan ∈ context.strategy.triggered, plan.InScope scope)

include triggered

/-- A tuple that is new pays for the rules that it triggers. -/
theorem record_charges {symbol : RelationSymbol} {tuple : Tuple} (member : symbol ∈ scope.symbols)
    (length : tuple.length = symbol.arity) :
    Charges scope context.strategy.triggered.length (context.record symbol tuple) := by
  intro state valid
  have distinct := scope.symbols_nodup
  unfold record
  cases strategyEq : context.strategy with
  | rounds =>
      have once := valid.collect_once distinct member length
      dsimp only
      rw [leaves_bind, TaskM.updateWorkspace, leaves_modifyGet]
      dsimp only
      generalize state.workspace.collect symbol tuple = result at once
      obtain ⟨isNew, workspace⟩ := result
      obtain ⟨laterValid, grows, derivedEq⟩ := once
      cases isNew with
      | true => exact ⟨{ laterValid with }, grows, fun _ member => .inl member, by simp [Strategy.triggered]⟩
      | false => exact ⟨laterValid, grows, fun _ member => .inl member, by simp [Strategy.triggered]⟩
  | eager rules =>
      have once := valid.store_once distinct member length
      rw [strategyEq] at triggered
      dsimp only [Strategy.triggered] at triggered ⊢
      rw [leaves_bind, TaskM.updateWorkspace, leaves_modifyGet]
      dsimp only
      generalize state.workspace.store symbol tuple = result at once
      obtain ⟨isNew, workspace⟩ := result
      obtain ⟨laterValid, grows, derivedEq⟩ := once
      cases isNew with
      | true =>
          simp only [if_true]
          rw [leaves_bind, TaskM.updateWorkspace, leaves_modifyGet]
          -- The budget of the triggers is what counting the tuple adds.
          have paid : ∀ later : TaskState, later.Charged scope rules.length rules.length
                { state with workspace := workspace.countDerived } →
              later.Charged scope rules.length 0 state := by
            intro later charged
            refine ⟨charged.valid, charged.grows.trans grows, charged.inScope, ?_⟩
            have covered := charged.covered
            have derived : workspace.countDerived.derived = state.workspace.derived + 1 :=
              congrArg (· + 1) derivedEq
            simp only [derived, Nat.mul_add, Nat.mul_one] at covered
            omega
          have counted : workspace.countDerived.StoresValid := { laterValid with }
          have spawned : Leaves (triggerRules symbol tuple rules)
              { state with workspace := workspace.countDerived } _ _ :=
            triggerRules_charged rules.length triggered counted
          exact spawned.mono (fun _ later => paid later) fun _ later => paid later
      | false =>
          simp only [Bool.false_eq_true, if_false]
          refine ⟨laterValid, grows, fun _ member => .inl member, ?_⟩
          change _ ≤ _ + rules.length * workspace.derived + 0
          rw [derivedEq]
          exact Nat.le_refl _

theorem report_charges (inScope : plan.InScope scope) :
    Charges scope context.strategy.triggered.length (context.report plan) := by
  intro state valid
  have lengths : Leaves (PlanTerm.evalList context.functions plan.head) state.bindings
      (fun ids _ => ids.length = plan.head.length) fun _ _ => True :=
    PlanTerm.length_evalList _ _ _
  have charges : Charges scope context.strategy.triggered.length _ :=
    .ofBindM (PlanTerm.interns_evalList context.functions plan.head)
  have evaluated : Leaves (TaskM.ofBindM (PlanTerm.evalList context.functions plan.head)) state
      (fun tuple later => later.Charged scope context.strategy.triggered.length 0 state ∧
        tuple.length = plan.head.length)
      fun _ later => later.Charged scope context.strategy.triggered.length 0 state := by
    refine ((TaskM.leaves_ofBindM lengths).and (charges state valid)).mono ?_
      fun _ _ stopped => stopped.2
    rintro tuple later ⟨⟨_, _, length⟩, charged⟩
    exact ⟨charged, length⟩
  refine Charges.andThen evaluated fun tuple later laterValid length => ?_
  exact record_charges triggered inScope.head_symbol (length.trans inScope.head_length) later
    laterValid

end TaskContext

/-! ## Bodies -/

namespace TaskContext

variable {context : TaskContext} {plan : RulePlan} {atom : PlanAtom} {continuation : TaskM Unit}

theorem lookup_charges (context : TaskContext) (atom : PlanAtom) :
    Charges scope rate (context.lookup atom) :=
  .bind (.ofBindM (PlanTerm.interns_evalList _ _)) fun _ => .get_bind fun _ => .pure

theorem filter_charges (context : TaskContext) (literal : PlanLiteral) :
    Charges scope rate (context.filter literal) := by
  cases literal with
  | unify source pattern =>
      exact .ofBindM (.bind (PlanTerm.interns_eval _ _) fun _ => PlanTerm.interns_matchValue _ _ _)
  | disunify lhs rhs =>
      exact .ofBindM (.bind (PlanTerm.interns_eval _ _) fun _ =>
        .bind (PlanTerm.interns_eval _ _) fun _ => .pure)
  | absent atom => exact .bind (context.lookup_charges atom) fun _ => .pure
  | scan atom => exact .throw

theorem filterAll_charges (context : TaskContext) (literals : List PlanLiteral) :
    Charges scope rate (context.filterAll literals) := by
  induction literals with
  | nil => exact .pure
  | cons literal literals ih =>
      exact .bind (context.filter_charges literal) fun _ => .ite ih .pure

theorem matchColumns_charges (checkBound : Bool) (tuple : Tuple) :
    Charges scope rate
      (TaskM.ofBindM (matchColumns context.functions checkBound atom.args atom.pattern tuple)) :=
  .ofBindM (interns_matchColumns _ _ _ _ _)

theorem scanTuples_charges (charges : Charges scope rate continuation) (tuples : List Tuple) :
    Charges scope rate (context.scanTuples atom continuation tuples) := by
  induction tuples with
  | nil => exact .pure
  | cons tuple tuples ih =>
      exact .bind (.undoing (.bind (matchColumns_charges false tuple) fun _ =>
        .ite charges .pure)) fun _ => ih

theorem scanRange_charges (charges : Charges scope rate continuation) (chunks : Nat)
    (keys : KeyRange) : Charges scope rate (context.scanRange atom continuation chunks keys) := by
  induction chunks generalizing keys with
  | zero => exact .pure
  | succ chunks ih =>
      refine .get_bind fun state => .bind (scanTuples_charges charges _) fun _ => ?_
      split
      · exact .pure
      · exact ih _

theorem scanView_charges (charges : Charges scope rate continuation) (view : View) :
    Charges scope rate (context.scanView atom continuation view) := by
  cases view with
  | array tuples => exact scanTuples_charges charges tuples
  | range keys count => exact scanRange_charges charges _ keys

variable (triggered : ∀ plan ∈ context.strategy.triggered, plan.InScope scope)

include triggered

theorem evalBody_charges (inScope : plan.InScope scope) (body : List PlanLiteral) :
    Charges scope context.strategy.triggered.length (context.evalBody plan body) := by
  induction body with
  | nil => exact report_charges triggered inScope
  | cons literal body ih =>
      cases literal with
      | scan atom => exact .bind (context.lookup_charges atom) fun view => scanView_charges ih view
      | unify | disunify | absent =>
          exact .undoing (.bind (context.filter_charges _) fun _ => .ite ih .pure)

end TaskContext

/-! ## Tasks -/

theorem pow_add_pow_lt {left right whole : Nat} (leftLt : left < whole) (rightLt : right < whole) :
    3 ^ left + 3 ^ right < 3 ^ whole := by
  obtain ⟨half, rfl⟩ := Nat.exists_eq_add_of_lt leftLt
  have positive : 0 < 3 ^ (left + half) := Nat.pow_pos (by decide)
  have leftLe : 3 ^ left ≤ 3 ^ (left + half) := Nat.pow_le_pow_right (by decide) (by omega)
  have rightLe : 3 ^ right ≤ 3 ^ (left + half) := Nat.pow_le_pow_right (by decide) (by omega)
  rw [Nat.pow_succ]
  omega

namespace TaskContext

variable {context : TaskContext} {plan : RulePlan} {state : TaskState} {atom : PlanAtom}

theorem scannedAtom_charges (plan : RulePlan) (position : Nat) (valid : state.workspace.StoresValid) :
    Leaves (scannedAtom plan position) state
      (fun atom later => later.Charged scope rate 0 state ∧ .scan atom ∈ plan.body)
      fun _ later => later.Charged scope rate 0 state := by
  unfold scannedAtom
  split
  · next atom atPosition => exact ⟨.refl valid, List.mem_of_getElem? atPosition⟩
  · exact .refl valid

/-- A lookup extends over no more keys than there are. -/
theorem lookup_extent (valid : state.workspace.StoresValid) (narrow : atom.symbol.arity ≤ scope.columns) :
    Leaves (context.lookup atom) state
      (fun view later => later.Charged scope rate 0 state ∧
        view.extent scope.columns ≤ KeyRange.keyCount scope.columns)
      fun _ later => later.Charged scope rate 0 state := by
  have charges : Charges scope rate
      (TaskM.ofBindM (PlanTerm.evalList context.functions atom.boundArgs)) :=
    .ofBindM (PlanTerm.interns_evalList _ _)
  unfold lookup
  rw [leaves_bind]
  refine (charges state valid).imp_done fun key later charged => ?_
  rw [leaves_bind, leaves_get]
  exact ⟨charged, (charged.valid.storeFor context atom).extent_get_le narrow _ _⟩

theorem valid_indexFor {workspace : Workspace} (valid : workspace.StoresValid) (context : TaskContext)
    (narrow : atom.symbol.arity ≤ scope.columns) :
    ∃ arity, (context.indexFor atom workspace).Valid arity ∧
      (context.indexFor atom workspace).pattern.keyColumns.length ≤ scope.columns := by
  unfold indexFor
  cases indexEq : (context.storeFor atom workspace).index? atom.symbol atom.index with
  | none =>
      have empty : (default : Index).Valid 0 :=
        ⟨rfl, fun _ member => absurd member List.not_mem_nil, .nil,
          fun _ member => absurd member List.not_mem_nil⟩
      exact ⟨0, empty, Nat.zero_le _⟩
  | some index =>
      have indexValid := (valid.storeFor context atom).index_valid indexEq
      exact ⟨_, indexValid, (index.pattern.length_keyColumns_le.trans indexValid.arity_eq.le).trans
        narrow⟩

theorem partsOf_extent (valid : state.workspace.StoresValid)
    (narrow : atom.symbol.arity ≤ scope.columns) (view : View) :
    Leaves (context.partsOf atom view) state
      (fun parts later => later.Charged scope rate 0 state ∧ ∀ left right, parts = some (left, right) →
        left.extent scope.columns < view.extent scope.columns ∧
          right.extent scope.columns < view.extent scope.columns)
      fun _ later => later.Charged scope rate 0 state := by
  obtain ⟨arity, indexValid, fits⟩ := valid_indexFor valid context narrow
  unfold partsOf
  split
  · rw [splitView, TaskM.updateWorkspace, leaves_modifyGet]
    refine ⟨⟨{ valid with }, Workspace.grows_withDraws _ _, fun _ member => .inl member,
      Nat.le_refl _⟩, ?_⟩
    exact fun left right partsEq => View.extent_split_lt indexValid fits partsEq
  · exact ⟨.refl valid, by simp⟩

variable (triggered : ∀ plan ∈ context.strategy.triggered, plan.InScope scope)

include triggered

theorem evaluate_charged (inScope : plan.InScope scope) (valid : state.workspace.StoresValid) :
    Leaves (context.evaluate plan) state
      (fun _ later => later.Charged scope context.strategy.triggered.length
        (3 ^ KeyRange.keyCount scope.columns) state)
      fun _ later => later.Charged scope context.strategy.triggered.length
        (3 ^ KeyRange.keyCount scope.columns) state := by
  have start : Charges scope context.strategy.triggered.length
      (TaskM.setSubstitution (.unbound plan.slots)) := .setSubstitution _
  unfold evaluate
  refine start.before valid fun _ started startedValid => ?_
  cases plan.firstScan? with
  | none =>
      refine (evalBody_charges triggered inScope plan.body started startedValid).mono ?_ ?_
      · exact fun _ _ done => done.mono (Nat.zero_le _)
      · exact fun _ _ stopped => stopped.mono (Nat.zero_le _)
  | some position =>
      refine (context.filterAll_charges _).before startedValid fun success filtered filteredValid => ?_
      split
      · refine Charges.andThen (scannedAtom_charges plan position filteredValid) ?_
        intro atom found foundValid inBody
        refine Charges.andThen (lookup_extent foundValid (inScope.narrow atom inBody)) ?_
        intro view looked lookedValid extent
        rw [leaves_bind, leaves_get, TaskM.spawn, leaves_modify]
        have spawned := TaskState.Charged.spawn context.strategy.triggered.length lookedValid
          (.scan plan position looked.substitution view) inScope
        exact spawned.mono (Nat.pow_le_pow_right (by decide) extent)
      · exact (TaskState.Charged.refl filteredValid).mono (Nat.zero_le _)

theorem scan_charged (inScope : plan.InScope scope) (valid : state.workspace.StoresValid)
    (position : Nat) (substitution : Substitution) (view : View) :
    Leaves (context.scan plan position substitution view) state
      (fun _ later => later.Charged scope context.strategy.triggered.length
        (3 ^ view.extent scope.columns - 1) state)
      fun _ later => later.Charged scope context.strategy.triggered.length
        (3 ^ view.extent scope.columns - 1) state := by
  unfold scan
  refine Charges.andThen (scannedAtom_charges plan position valid) ?_
  intro atom found foundValid inBody
  refine Charges.andThen (partsOf_extent foundValid (inScope.narrow atom inBody) view) ?_
  intro parts split splitValid shorter
  cases parts with
  | none =>
      have continued : Charges scope context.strategy.triggered.length
          (context.scanParts plan position substitution atom view none) :=
        .bind (.setSubstitution _) fun _ =>
          scanView_charges (evalBody_charges triggered inScope _) view
      refine (continued split splitValid).mono ?_ ?_
      · exact fun _ _ done => done.mono (Nat.zero_le _)
      · exact fun _ _ stopped => stopped.mono (Nat.zero_le _)
  | some both =>
      obtain ⟨left, right⟩ := both
      obtain ⟨leftShorter, rightShorter⟩ := shorter left right rfl
      have less := pow_add_pow_lt leftShorter rightShorter
      have spawnedLeft := TaskState.Charged.spawn context.strategy.triggered.length splitValid
        (.scan plan position substitution left) inScope
      have spawnedRight := TaskState.Charged.spawn context.strategy.triggered.length
        spawnedLeft.valid (.scan plan position substitution right) inScope
      refine (spawnedRight.trans spawnedLeft).mono ?_
      simp only [Task.weight]
      omega

theorem trigger_charges (inScope : plan.InScope scope) (tuple : Tuple) :
    Charges scope context.strategy.triggered.length (context.trigger plan tuple) := by
  unfold trigger
  split
  · exact .pure
  · next position _ =>
      refine .bind (.setSubstitution _) fun _ => .bind (context.filterAll_charges _) fun _ => ?_
      refine .ite (.bind (fun _ valid => ?_) fun atom => .bind (matchColumns_charges true tuple) fun _ =>
        .ite (evalBody_charges triggered inScope _) .pure) .pure
      exact (scannedAtom_charges plan position valid).imp_done fun _ _ done => done.1

end TaskContext

/-- What running a task does: the stores stay valid, what is added is counted, and the tasks that are
spawned weigh less than the task and what was added pays for. -/
structure Task.Paid (scope : Scope) (rate : Nat) (task : Task) (workspace : Workspace)
    (result : TaskResult Task Workspace TaskError) : Prop where
  valid : result.state.StoresValid
  grows : result.state.Grows scope.symbols workspace
  inScope : ∀ other ∈ result.spawned, other.InScope scope
  covered : Task.totalWeight scope.columns result.spawned + rate * workspace.derived <
    task.weight scope.columns + rate * result.state.derived

/-- Every task is paid for. -/
theorem TaskContext.run_paid {context : TaskContext}
    (triggered : ∀ plan ∈ context.strategy.triggered, plan.InScope scope) {task : Task}
    (inScope : task.InScope scope) {workspace : Workspace} (valid : workspace.StoresValid) :
    task.Paid scope context.strategy.triggered.length workspace (context.run task workspace) := by
  let start : TaskState := { workspace, substitution := .unbound 0 }
  have startValid : start.workspace.StoresValid := valid
  have charged : Leaves (context.steps task) start
      (fun _ later => later.Charged scope context.strategy.triggered.length
        (task.weight scope.columns - 1) start)
      fun _ later => later.Charged scope context.strategy.triggered.length
        (task.weight scope.columns - 1) start := by
    cases task with
    | load symbol facts => exact inScope.elim
    | evaluate plan => exact evaluate_charged triggered inScope startValid
    | scan plan position substitution view =>
        exact scan_charged triggered inScope startValid position substitution view
    | trigger plan tuple => exact trigger_charges triggered inScope tuple start startValid
  have positive : 0 < task.weight scope.columns := by
    cases task <;> simp [Task.weight]
  obtain ⟨later, stateEq, spawnedEq, charged⟩ := TaskContext.exists_ran_of_kept charged
  refine ⟨stateEq ▸ charged.valid, stateEq ▸ charged.grows, fun other member => ?_, ?_⟩
  · exact (charged.inScope other (spawnedEq ▸ member)).resolve_left (by simp [start])
  · have covered := charged.covered
    have nothing : Task.totalWeight scope.columns start.spawned = 0 := rfl
    simp only [nothing, start] at covered
    rw [← stateEq, ← spawnedEq]
    omega

end Datalog
