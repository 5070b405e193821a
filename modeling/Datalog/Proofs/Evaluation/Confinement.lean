import Datalog.Proofs.Evaluation.Unlimited

/-!
# What a pass leaves alone

The rules of a pass write tuples of the relations that they derive and of no others: into the main
store if they are run eagerly, and into a store of their own in rounds.  Nothing that tasks do besides,
and nothing that they leave to others, changes the main store.
-/

namespace Datalog

namespace FactStore

variable {symbols : List RelationSymbol} {symbol : RelationSymbol}

def except (store : FactStore) (symbols : List RelationSymbol) : FactStore :=
  { store with relations := store.relations.filter fun entry => entry.1 ∉ symbols }

@[simp]
theorem except_nil (store : FactStore) : store.except [] = store := by
  simp [except]

theorem relation?_except (store : FactStore) (outside : symbol ∉ symbols) :
    (store.except symbols).relation? symbol = store.relation? symbol := by
  rw [relation?, relation?, except, List.find?_filter]
  congr 2
  funext entry
  by_cases same : entry.1 = symbol
  · simp [same, outside]
  · simp [same]

theorem except_setRelation (store : FactStore) (inside : symbol ∈ symbols) (relation : Relation) :
    (store.setRelation symbol relation).except symbols = store.except symbols := by
  rw [except, except, setRelation, List.filter_map]
  congr 1
  have sameKey : ∀ entry : RelationSymbol × Relation,
      (if entry.1 = symbol then (symbol, relation) else entry).1 = entry.1 := by
    intro entry
    split
    · next same => exact same.symm
    · rfl
  simp only [Function.comp_def, sameKey]
  -- The entry that is replaced is not among those that are left.
  calc
    _ = (store.relations.filter fun entry => entry.1 ∉ symbols).map id := by
        apply List.map_congr_left
        intro entry member
        have outside : entry.1 ∉ symbols := by simpa using (List.mem_filter.mp member).2
        exact if_neg (ne_of_mem_of_not_mem inside outside).symm
    _ = _ := List.map_id _

theorem except_add (store : FactStore) (inside : symbol ∈ symbols) (tuple : Tuple) :
    (store.add symbol tuple).2.except symbols = store.except symbols := by
  unfold add
  split
  · rfl
  · exact store.except_setRelation inside _

theorem tuplesOf_eq_of_except {store later : FactStore}
    (same : later.except symbols = store.except symbols) (outside : symbol ∉ symbols) :
    later.tuplesOf symbol = store.tuplesOf symbol := by
  have relationEq := congrArg (·.relation? symbol) same
  simp only [relation?_except _ outside] at relationEq
  have limitsEq := congrArg (fun store : FactStore => store.limits) same
  change later.limits = store.limits at limitsEq
  rw [tuplesOf, tuplesOf, all, all, masterOf, masterOf, relationEq, limitsEq]

end FactStore

/-- A task runs a rule for one of some relations. -/
def Task.DerivesIn (symbols : List RelationSymbol) : Task → Prop
  | .load .. => False
  | .evaluate plan | .scan plan .. | .trigger plan _ => plan.headSymbol ∈ symbols

/-- The main store is as given, apart from the relations that may grow in it, and all tasks that were
spawned derive relations of the stratum. -/
structure TaskState.Confined (symbols growing : List RelationSymbol) (store : FactStore)
    (state : TaskState) : Prop where
  db : state.workspace.db.except growing = store
  spawned : ∀ task ∈ state.spawned, task.DerivesIn symbols

/-- A step stays confined. -/
def Confines {α : Type} (symbols growing : List RelationSymbol) (store : FactStore)
    (step : TaskM α) : Prop :=
  ∀ state : TaskState, state.Confined symbols growing store →
    Leaves step state (fun _ later => later.Confined symbols growing store)
      fun _ later => later.Confined symbols growing store

namespace Confines

variable {α β : Type} {symbols growing : List RelationSymbol} {store : FactStore}

theorem pure {value : α} : Confines symbols growing store (pure value : TaskM α) :=
  fun _ confined => confined

theorem bind {first : TaskM α} {next : α → TaskM β} (confines : Confines symbols growing store first)
    (nextConfines : ∀ value, Confines symbols growing store (next value)) :
    Confines symbols growing store (first >>= next) :=
  fun state confined => (confines state confined).bind fun value later => nextConfines value later

theorem get_bind {next : TaskState → TaskM β}
    (nextConfines : ∀ state, Confines symbols growing store (next state)) :
    Confines symbols growing store (get >>= next) :=
  .bind (fun _ confined => confined) nextConfines

theorem ite {condition : Prop} [Decidable condition] {first second : TaskM α}
    (confines : Confines symbols growing store first)
    (confines' : Confines symbols growing store second) :
    Confines symbols growing store (if condition then first else second) := by
  split
  · exact confines
  · exact confines'

theorem of_bindsOnly {step : TaskM α} (binds : BindsOnly step) :
    Confines symbols growing store step := by
  intro state confined
  apply (binds state).mono
  · rintro _ _ ⟨bindings, rfl⟩
    exact ⟨confined.db, confined.spawned⟩
  · rintro _ _ ⟨bindings, rfl⟩
    exact ⟨confined.db, confined.spawned⟩

theorem setSubstitution (substitution : Substitution) :
    Confines symbols growing store (TaskM.setSubstitution substitution) :=
  fun _ confined => ⟨confined.db, confined.spawned⟩

theorem undoing {step : TaskM Unit} (confines : Confines symbols growing store step) :
    Confines symbols growing store (TaskM.undoing step) :=
  .get_bind fun _ => .bind confines fun _ _ confined => ⟨confined.db, confined.spawned⟩

/-- A change of the stores that leaves the confined part of the main store alone. -/
theorem updateWorkspace {update : Workspace → α × Workspace}
    (unchanged : ∀ workspace, (update workspace).2.db.except growing = workspace.db.except growing) :
    Confines symbols growing store (TaskM.updateWorkspace update) :=
  fun state confined => ⟨(unchanged state.workspace).trans confined.db, confined.spawned⟩

theorem spawn {task : Task} (derives : task.DerivesIn symbols) :
    Confines symbols growing store (TaskM.spawn task) := by
  intro state confined
  refine ⟨confined.db, fun other member => ?_⟩
  rcases List.mem_append.mp member with before | here
  · exact confined.spawned other before
  · rwa [List.mem_singleton.mp here]

end Confines

namespace TaskContext

variable {context : TaskContext} {symbols growing : List RelationSymbol} {store : FactStore}
  {plan : RulePlan}

theorem matchColumns_confines (checkBound : Bool) (atom : PlanAtom) (tuple : Tuple) :
    Confines symbols growing store
      (TaskM.ofBindM (matchColumns context.functions checkBound atom.args atom.pattern tuple)) :=
  .of_bindsOnly .ofBindM

theorem scanTuples_confines {atom : PlanAtom} {continuation : TaskM Unit}
    (confines : Confines symbols growing store continuation) (tuples : List Tuple) :
    Confines symbols growing store (context.scanTuples atom continuation tuples) := by
  induction tuples with
  | nil => exact .pure
  | cons tuple tuples ih =>
      exact .bind (.undoing (.bind (matchColumns_confines false atom tuple) fun _ =>
        .ite confines .pure)) fun _ => ih

theorem scanRange_confines {atom : PlanAtom} {continuation : TaskM Unit}
    (confines : Confines symbols growing store continuation) (chunks : Nat) (keys : KeyRange) :
    Confines symbols growing store (context.scanRange atom continuation chunks keys) := by
  induction chunks generalizing keys with
  | zero => exact .pure
  | succ chunks ih =>
      refine .get_bind fun state => .bind (scanTuples_confines confines _) fun _ => ?_
      split
      · exact .pure
      · exact ih _

theorem scanView_confines {atom : PlanAtom} {continuation : TaskM Unit}
    (confines : Confines symbols growing store continuation) (view : View) :
    Confines symbols growing store (context.scanView atom continuation view) := by
  cases view with
  | array tuples => exact scanTuples_confines confines tuples
  | range keys count => exact scanRange_confines confines _ keys

theorem partsOf_confines (atom : PlanAtom) (view : View) :
    Confines symbols growing store (context.partsOf atom view) :=
  .ite (.updateWorkspace fun _ => rfl) .pure

theorem triggerRules_confines {symbol : RelationSymbol} {tuple : Tuple} {rules : List RulePlan}
    (derive : ∀ rule ∈ rules, rule.headSymbol ∈ symbols) :
    Confines symbols growing store (triggerRules symbol tuple rules) := by
  induction rules with
  | nil => exact .pure
  | cons rule rules ih =>
      obtain ⟨here, there⟩ := List.forall_mem_cons.mp derive
      unfold triggerRules
      split
      · exact .bind (.spawn here) fun _ => ih there
      · exact ih there

variable (triggered : ∀ rule ∈ context.strategy.triggered, rule.headSymbol ∈ symbols)

include triggered

/-- In rounds a tuple is collected elsewhere, and eagerly it belongs to a relation that may grow. -/
theorem record_confines {symbol : RelationSymbol} (derived : symbol ∈ symbols) (tuple : Tuple) :
    Confines symbols (context.strategy.growing symbols) store (context.record symbol tuple) := by
  unfold record
  cases strategyEq : context.strategy with
  | rounds =>
      refine .bind (.updateWorkspace fun workspace => ?_) fun _ =>
        .ite (.updateWorkspace fun _ => rfl) .pure
      unfold Workspace.collect
      split <;> rfl
  | eager rules =>
      rw [strategyEq] at triggered
      refine .bind (.updateWorkspace fun workspace => ?_) fun _ =>
        .ite (.bind (.updateWorkspace fun _ => rfl) fun _ => triggerRules_confines triggered) .pure
      exact workspace.db.except_add derived tuple

theorem evalBody_confines (derives : plan.headSymbol ∈ symbols) (body : List PlanLiteral) :
    Confines symbols (context.strategy.growing symbols) store (context.evalBody plan body) := by
  induction body with
  | nil => exact .bind (.of_bindsOnly .ofBindM) fun tuple => record_confines triggered derives tuple
  | cons literal body ih =>
      cases literal with
      | scan atom =>
          exact .bind (.of_bindsOnly (bindsOnly_lookup atom)) fun view => scanView_confines ih view
      | unify | disunify | absent =>
          exact .undoing (.bind (.of_bindsOnly (bindsOnly_filter _)) fun _ => .ite ih .pure)

theorem evaluate_confines (derives : plan.headSymbol ∈ symbols) :
    Confines symbols (context.strategy.growing symbols) store (context.evaluate plan) := by
  unfold evaluate
  refine .bind (.setSubstitution _) fun _ => ?_
  split
  · exact evalBody_confines triggered derives plan.body
  · next position _ =>
      refine .bind (.of_bindsOnly (bindsOnly_filterAll _)) fun _ => .ite ?_ .pure
      refine .bind (.of_bindsOnly (bindsOnly_scannedAtom plan position)) fun atom => ?_
      refine .bind (.of_bindsOnly (bindsOnly_lookup atom)) fun view => ?_
      exact .get_bind fun state => .spawn derives

theorem scan_confines (derives : plan.headSymbol ∈ symbols) (position : Nat)
    (substitution : Substitution) (view : View) :
    Confines symbols (context.strategy.growing symbols) store
      (context.scan plan position substitution view) := by
  refine .bind (.of_bindsOnly (bindsOnly_scannedAtom plan position)) fun atom => ?_
  refine .bind (partsOf_confines atom view) fun parts => ?_
  cases parts with
  | some both => exact .bind (.spawn derives) fun _ => .spawn derives
  | none =>
      exact .bind (.setSubstitution _) fun _ =>
        scanView_confines (evalBody_confines triggered derives _) view

theorem trigger_confines (derives : plan.headSymbol ∈ symbols) (tuple : Tuple) :
    Confines symbols (context.strategy.growing symbols) store (context.trigger plan tuple) := by
  unfold trigger
  split
  · exact .pure
  · next position _ =>
      refine .bind (.setSubstitution _) fun _ => ?_
      refine .bind (.of_bindsOnly (bindsOnly_filterAll _)) fun _ => .ite ?_ .pure
      refine .bind (.of_bindsOnly (bindsOnly_scannedAtom plan position)) fun atom => ?_
      exact .bind (matchColumns_confines true atom tuple) fun _ =>
        .ite (evalBody_confines triggered derives _) .pure

variable (context) in
/-- A task that derives a relation of the stratum changes no other relation of the main store, and
neither do the tasks that it spawns. -/
theorem run_confined {task : Task} (derives : task.DerivesIn symbols) (workspace : Workspace) :
    (context.run task workspace).state.db.except (context.strategy.growing symbols) =
        workspace.db.except (context.strategy.growing symbols) ∧
      ∀ other ∈ (context.run task workspace).spawned, other.DerivesIn symbols := by
  let first : TaskState := { workspace, substitution := .unbound 0 }
  have confined : first.Confined symbols (context.strategy.growing symbols)
      (workspace.db.except (context.strategy.growing symbols)) := ⟨rfl, by simp [first]⟩
  have confines : Confines symbols (context.strategy.growing symbols)
      (workspace.db.except (context.strategy.growing symbols)) (context.steps task) := by
    cases task with
    | load => exact derives.elim
    | evaluate plan => exact evaluate_confines triggered derives
    | scan plan position substitution view =>
        exact scan_confines triggered derives position substitution view
    | trigger plan tuple => exact trigger_confines triggered derives tuple
  obtain ⟨later, stateEq, spawnedEq, kept⟩ := exists_ran_of_kept (confines first confined)
  rw [← stateEq, ← spawnedEq]
  exact ⟨kept.db, kept.spawned⟩

end TaskContext

end Datalog
