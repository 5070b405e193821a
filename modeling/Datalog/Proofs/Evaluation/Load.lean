import Datalog.Proofs.Evaluation.Pass
import Datalog.Proofs.Evaluation.Round
import Datalog.Proofs.Program
import Datalog.Proofs.Semantics.PerfectModel

/-!
# Loading base facts

Loading evaluates the arguments of base facts and stores them.  The tasks that load facts spawn no
further ones, and whatever has been loaded together with what waiting tasks state is the base model of
the program, in whatever order the tasks are taken.
-/

namespace Datalog

variable {meaning : Interpretation} {functions : Registry} {schema : Schema}
  {model recent : Model} {workspace : Workspace} {symbol : RelationSymbol} {tuple : Tuple}
  {values : List Value}

/-! ## Ground terms -/

namespace Term

mutual

/-- Terms that can be evaluated without an assignment have the same value under each. -/
theorem normalize_leaves (computes : functions.Computes meaning) :
    (term : Term) → {store : TermStore} → store.Distinct →
      LeavesWithRoom (term.normalize functions) store
        (Yields fun value => ∀ assignment, term.eval meaning assignment = some value)
        fun _ _ => True
  | .var name, _, _ => by
      unfold normalize
      exact .throw trivial
  | .bool value, _, distinct => by
      unfold normalize
      exact (internTerm_leaves distinct (.bool value)).mono
        (fun _ _ leaves => ⟨leaves.1, .bool value, fun _ => rfl, leaves.2.1⟩) fun _ _ _ => trivial
  | .int value, _, distinct => by
      unfold normalize
      exact (internTerm_leaves distinct (.int value)).mono
        (fun _ _ leaves => ⟨leaves.1, .int value, fun _ => rfl, leaves.2.1⟩) fun _ _ _ => trivial
  | .str value, _, distinct => by
      unfold normalize
      exact (internTerm_leaves distinct (.str value)).mono
        (fun _ _ leaves => ⟨leaves.1, .str value, fun _ => rfl, leaves.2.1⟩) fun _ _ _ => trivial
  | .ctor name args, _, distinct => by
      unfold normalize
      refine .bind (normalizeList_leaves computes args distinct) (fun _ => interns_internTerm _) ?_
      rintro ids middle ⟨distinct, values, evaluated, denotes⟩
      refine (internTerm_ctor distinct name denotes).mono ?_ fun _ _ _ => trivial
      rintro id later ⟨distinct, _, rfl, denotes⟩
      exact ⟨distinct, _, fun assignment => by simp [Term.eval, evaluated assignment], denotes⟩
  | .call function args, _, distinct => by
      unfold normalize
      refine .bind (normalizeList_leaves computes args distinct)
        (fun _ => functions.interns_call _ _) ?_
      rintro ids middle ⟨distinct, values, evaluated, denotes⟩
      refine (Registry.call_leaves computes distinct function denotes).mono ?_ fun _ _ _ => trivial
      rintro id later ⟨distinct, value, called, denotes⟩
      exact ⟨distinct, value, fun assignment => by simp [Term.eval, evaluated assignment, called],
        denotes⟩

theorem normalizeList_leaves (computes : functions.Computes meaning) :
    (args : List Term) → {store : TermStore} → store.Distinct →
      LeavesWithRoom (normalizeList functions args) store
        (fun ids later => later.Distinct ∧ ∃ values,
          (∀ assignment, evalList meaning assignment args = some values) ∧
            later.DenotesAll ids values)
        fun _ _ => True
  | [], _, distinct => by
      unfold normalizeList
      exact .pure ⟨distinct, [], fun _ => rfl, trivial⟩
  | term :: args, _, distinct => by
      unfold normalizeList
      refine .bind (normalize_leaves computes term distinct)
        (fun _ => .bind (interns_normalizeList functions args) fun _ => .pure) ?_
      rintro id middle ⟨distinct, value, evaluated, denotes⟩
      have others := (normalizeList_leaves computes args distinct).grown
        (interns_normalizeList functions args)
      refine .bind (others.mono (fun _ _ both => both) fun _ _ _ => trivial) (fun _ => .pure) ?_
      rintro ids later ⟨⟨distinct, values, evaluated', denotes'⟩, grown⟩
      refine .pure ⟨distinct, value :: values, fun assignment => ?_, denotes.mono grown, denotes'⟩
      exact evalList_cons_eq_some.mpr
        ⟨value, values, evaluated assignment, evaluated' assignment, rfl⟩

end

end Term

/-! ## Storing facts -/

namespace Workspace

theorem AtRest.withTerms (atRest : workspace.AtRest schema model recent) {terms : TermStore}
    (distinct : terms.Distinct) (grown : terms.Extends workspace.terms) :
    ({ workspace with terms } : Workspace).AtRest schema model recent :=
  { atRest with
    distinct := distinct
    db_shows := ⟨atRest.db_shows.within.mono grown, atRest.db_shows.includes.mono (.refl _) grown⟩
    delta_shows :=
      ⟨atRest.delta_shows.within.mono grown, atRest.delta_shows.includes.mono (.refl _) grown⟩ }

theorem AtRest.store (atRest : workspace.AtRest schema model recent)
    (declared : symbol ∈ schema.declared) (length : tuple.length = symbol.arity)
    (denotes : workspace.terms.DenotesAll tuple values) :
    (workspace.store symbol tuple).2.AtRest schema (model ∪ {(symbol, values)}) recent ∧
      (workspace.store symbol tuple).2.db.Grows workspace.db := by
  have added := (atRest.db_usable.valid.add length).1
  have registered := atRest.db_registers symbol declared
  refine ⟨{ atRest with
    db_usable := ⟨added.valid, added.grows.limits_eq ▸ atRest.db_usable.bounded⟩
    db_shows := ⟨?_, ?_⟩
    db_registers := fun other member =>
      added.grows.registers_iff.mpr (atRest.db_registers other member) }, added.grows⟩
  · intro other row holds
    rcases (added.holds_iff other row).mp holds with before | ⟨rfl, here, -⟩
    · obtain ⟨rowValues, rowDenotes, known⟩ := atRest.db_shows.within other row before
      exact ⟨rowValues, rowDenotes, .inl known⟩
    · obtain rfl := List.mem_singleton.mp here
      exact ⟨values, denotes, .inr rfl⟩
  · rintro fact (known | rfl)
    · obtain ⟨row, holds, rowDenotes⟩ := atRest.db_shows.includes fact known
      exact ⟨row, (added.holds_iff _ _).mpr (.inl holds), rowDenotes⟩
    · refine ⟨tuple, (added.holds_iff _ _).mpr (.inr ⟨rfl, ?_, registered⟩), denotes⟩
      exact List.mem_singleton_self tuple

/-- Facts have been stored: the main store shows some more facts and keeps its indices. -/
structure Loaded (schema : Schema) (model : Model) (later earlier : Workspace) : Prop where
  atRest : later.AtRest schema model ∅
  terms : later.terms.Extends earlier.terms
  db : later.db.Grows earlier.db
  delta : later.delta = earlier.delta

theorem Loaded.trans {first second third : Workspace} {model' : Model}
    (right : Loaded schema model third second) (left : Loaded schema model' second first) :
    Loaded schema model third first :=
  ⟨right.atRest, right.terms.trans left.terms, right.db.trans left.db, right.delta.trans left.delta⟩

theorem Loaded.keeps {later earlier : Workspace} (loaded : Loaded schema model later earlier)
    (strategy : Strategy) : later.Keeps strategy earlier := by
  refine ⟨loaded.terms, fun marked symbol number pattern provides => ?_⟩
  cases strategy with
  | rounds =>
      cases marked
      · exact loaded.db.provides provides
      · change later.delta.Provides symbol number pattern
        rw [loaded.delta]
        exact provides
  | eager rules => exact loaded.db.provides provides

end Workspace

theorem TaskM.spawned_ofBindM {α : Type} (computation : BindM α) (state : TaskState) :
    Leaves (TaskM.ofBindM computation) state (fun _ later => later.spawned = state.spawned)
      fun _ later => later.spawned = state.spawned := by
  unfold Leaves TaskM.ofBindM
  cases computation ⟨state.workspace.terms, state.substitution⟩ <;> rfl

/-! ## Tasks that load facts -/

def statedFacts (meaning : Interpretation) (symbol : RelationSymbol) (facts : List (List Term)) :
    Model :=
  {fact | symbol = fact.1 ∧ ∃ args ∈ facts, ∃ assignment,
    Term.evalList meaning assignment args = some fact.2}

theorem statedFacts_cons {args : List Term} {facts : List (List Term)}
    (evaluated : ∀ assignment, Term.evalList meaning assignment args = some values) :
    statedFacts meaning symbol (args :: facts) =
      {(symbol, values)} ∪ statedFacts meaning symbol facts := by
  ext ⟨other, otherValues⟩
  constructor
  · rintro ⟨symbolEq, stated, member, assignment, valuesEq⟩
    rcases List.mem_cons.mp member with rfl | member
    · obtain rfl := Option.some.inj (valuesEq.symm.trans (evaluated assignment))
      exact .inl (Prod.ext symbolEq.symm rfl)
    · exact .inr ⟨symbolEq, stated, member, assignment, valuesEq⟩
  · rintro (same | ⟨symbolEq, stated, member, assignment, valuesEq⟩)
    · obtain ⟨rfl, rfl⟩ := Prod.mk.inj same
      exact ⟨rfl, args, List.mem_cons_self, fun _ => .bool true, evaluated _⟩
    · exact ⟨symbolEq, stated, List.mem_cons_of_mem _ member, assignment, valuesEq⟩

/-- What a task states: a task that loads facts states them. -/
def Task.stated (meaning : Interpretation) : Task → Model
  | .load symbol facts => statedFacts meaning symbol facts
  | _ => ∅

/-- A task loads facts of a declared relation. -/
def Task.Loads (schema : Schema) : Task → Prop
  | .load symbol facts => symbol ∈ schema.declared ∧ ∀ args ∈ facts, args.length = symbol.arity
  | _ => False

theorem Task.Loads.exists_load {task : Task} (loads : task.Loads schema) :
    ∃ symbol facts, task = .load symbol facts ∧ symbol ∈ schema.declared ∧
      ∀ args ∈ facts, args.length = symbol.arity := by
  cases task with
  | load symbol facts => exact ⟨symbol, facts, rfl, loads⟩
  | evaluate | scan | trigger => exact loads.elim

namespace TaskContext

variable {context : TaskContext}

theorem loadFact_leaves (computes : context.functions.Computes meaning) {store : TermStore}
    (distinct : store.Distinct) (fact : Fact) :
    LeavesWithRoom (context.loadFact fact) store
      (fun ids later => later.Distinct ∧ ∃ values,
        (∀ assignment, Term.evalList meaning assignment fact.args = some values) ∧
          later.DenotesAll ids values)
      fun _ _ => True := by
  have leaves := Term.normalizeList_leaves computes fact.args distinct
  unfold LeavesWithRoom Leaves at leaves ⊢
  unfold loadFact
  cases outcome : Term.normalizeList context.functions fact.args store with
  | ok ids later =>
      rw [outcome] at leaves
      exact leaves
  | error error later => exact fun _ => trivial

/-- Loading facts adds what they state. -/
theorem load_leaves (computes : context.functions.Computes meaning)
    (declared : symbol ∈ schema.declared) {facts : List (List Term)}
    (lengths : ∀ args ∈ facts, args.length = symbol.arity) {state : TaskState}
    (atRest : state.workspace.AtRest schema model ∅) :
    LeavesWithRoom (context.load symbol facts) state
      (fun _ later => Workspace.Loaded schema (model ∪ statedFacts meaning symbol facts)
        later.workspace state.workspace)
      fun _ _ => True := by
  induction facts generalizing model state with
  | nil =>
      have nothing : statedFacts meaning symbol [] = ∅ := by
        ext fact
        simp [statedFacts]
      rw [nothing, Set.union_empty]
      exact .pure ⟨atRest, .refl _, .refl _, rfl⟩
  | cons args facts ih =>
      have evaluated := TaskM.ofBindM_leaves (BindM.ofTermM_leaves
        ((loadFact_leaves computes atRest.distinct { symbol, args }).grown
          (context.interns_loadFact { symbol, args })))
      refine .bind (evaluated.mono (fun _ _ done => done) fun _ _ _ => trivial) (fun tuple => ?_) ?_
      · refine .bind (TaskM.interns_updateWorkspace fun _ => rfl) fun _ => ?_
        exact context.interns_load symbol facts
      rintro tuple _ ⟨bindings, rfl, ⟨⟨distinct, values, valuesEq, denotes⟩, grown⟩, -⟩
      have length : tuple.length = symbol.arity := by
        have sameLength := Term.evalList_length (valuesEq fun _ => .bool true)
        rw [denotes.length_eq, sameLength]
        exact lengths args List.mem_cons_self
      obtain ⟨stored, kept⟩ := (atRest.withTerms distinct grown).store declared length denotes
      refine .modifyGet_bind ?_
      let next : TaskState := { (state.withBindings bindings) with
        workspace := ((state.withBindings bindings).workspace.store symbol tuple).2 }
      have rest : LeavesWithRoom (context.load symbol facts) next _ _ :=
        ih (fun other member => lengths other (List.mem_cons_of_mem _ member)) stored
      refine rest.mono ?_ fun _ _ _ => trivial
      rintro _ later loaded
      rw [statedFacts_cons valuesEq, ← Set.union_assoc]
      exact loaded.trans ⟨stored, grown, kept, rfl⟩

theorem spawned_load (symbol : RelationSymbol) (facts : List (List Term)) (state : TaskState) :
    Leaves (context.load symbol facts) state (fun _ later => later.spawned = state.spawned)
      fun _ later => later.spawned = state.spawned := by
  induction facts generalizing state with
  | nil => exact rfl
  | cons args facts ih =>
      unfold load
      rw [leaves_bind]
      refine (TaskM.spawned_ofBindM _ state).mono ?_ fun _ _ same => same
      intro tuple middle same
      rw [leaves_bind]
      exact (ih _).mono (fun _ _ same' => same'.trans same) fun _ _ same' => same'.trans same

theorem spawned_run {task : Task} (loads : task.Loads schema) (workspace : Workspace) :
    (context.run task workspace).spawned = [] := by
  obtain ⟨symbol, facts, rfl, -⟩ := loads.exists_load
  let start : TaskState := { workspace, substitution := .unbound 0 }
  have nothing : Leaves (context.steps (.load symbol facts)) start _ _ :=
    context.spawned_load symbol facts start
  obtain ⟨later, -, spawnedEq, none⟩ := exists_ran_of_kept nothing
  exact spawnedEq.symm.trans none

theorem run_loaded (computes : context.functions.Computes meaning) {task : Task}
    (loads : task.Loads schema) (atRest : workspace.AtRest schema model ∅)
    (ended : (context.run task workspace).outcome = .ok ())
    (room : (context.run task workspace).state.terms.HasRoom) :
    Workspace.Loaded schema (model ∪ task.stated meaning) (context.run task workspace).state
      workspace := by
  obtain ⟨symbol, facts, rfl, declared, lengths⟩ := loads.exists_load
  let start : TaskState := { workspace, substitution := .unbound 0 }
  have leaves : LeavesWithRoom (context.steps (.load symbol facts)) start _ _ :=
    load_leaves computes declared lengths atRest
  obtain ⟨later, stateEq, -, ⟨-, loaded⟩ | ⟨failure, failed, -⟩⟩ := exists_ran leaves
  · rw [← stateEq] at room ⊢
    exact loaded room
  · rw [ended] at failed
    cases failed

end TaskContext

/-! ## Loading a program -/

/-- What holds while facts are being loaded: what is known and what the waiting tasks state is the
goal. -/
structure Loading (meaning : Interpretation) (schema : Schema) (goal : Model) (start : Workspace)
    (pool : Pool Task TaskError) (workspace : Workspace) : Prop where
  loads : ∀ task ∈ pool.queue, task.Loads schema
  loaded : ∃ model, workspace.Loaded schema model start ∧
    goal = model ∪ {fact | ∃ task ∈ pool.queue, fact ∈ task.stated meaning}

theorem Loading.step {context : TaskContext} (computes : context.functions.Computes meaning)
    {goal : Model} {start last : Workspace} {pool later : Pool Task TaskError} {task : Task}
    (stepped : Pool.Stepped context.run task pool later workspace last)
    (loading : Loading meaning schema goal start pool workspace)
    (ended : (context.run task workspace).outcome = .ok ()) (room : last.terms.HasRoom) :
    Loading meaning schema goal start later last := by
  obtain ⟨model, loaded, goalEq⟩ := loading.loaded
  have loads := loading.loads task stepped.taken
  have nothing := context.spawned_run loads workspace
  refine ⟨fun other member => loading.loads other (stepped.waited nothing member), ?_⟩
  have ran := context.run_loaded computes loads loaded.atRest ended (stepped.state_eq ▸ room)
  rw [← stepped.state_eq] at ran
  refine ⟨model ∪ task.stated meaning, ran.trans loaded, ?_⟩
  rw [goalEq, Set.union_assoc]
  congr 1
  ext fact
  constructor
  · rintro ⟨other, waiting, stated⟩
    rcases stepped.before other waiting with rfl | left
    · exact .inl stated
    · exact .inr ⟨other, left, stated⟩
  · rintro (stated | ⟨other, waiting, stated⟩)
    · exact ⟨task, stepped.taken, stated⟩
    · exact ⟨other, stepped.waited nothing waiting, stated⟩

theorem Loading.drain {context : TaskContext} (computes : context.functions.Computes meaning)
    {goal : Model} {order : Nat → Nat} {fuel : Nat} {start last : Workspace}
    {pool later : Pool Task TaskError} (loading : Loading meaning schema goal start pool workspace)
    (drained : pool.drain context.run order fuel workspace = some (later, last))
    (noFailure : later.failures = []) (room : last.terms.HasRoom) :
    last.Loaded schema goal start ∧ later.queue = [] := by
  have idle := Pool.queue_eq_nil_of_drain drained
  have kept : Loading meaning schema goal start later last :=
    TaskContext.drain_without_failure
      (fun stepped room ended loading => Loading.step computes stepped loading ended room)
      drained loading noFailure room
  obtain ⟨model, loaded, goalEq⟩ := kept.loaded
  have all : goal = model := by simpa [idle] using goalEq
  exact ⟨all ▸ loaded, idle⟩

namespace Evaluation

variable {program : Program} {config : Config} {schedule : Schedule}

theorem flatten_batches {α : Type} {size : Nat} (positive : 0 < size) {fuel : Nat}
    {items : List α} (enough : items.length ≤ fuel) : (batches size fuel items).flatten = items := by
  induction fuel generalizing items with
  | zero =>
      have empty : items = [] := List.length_eq_zero_iff.mp (Nat.le_zero.mp enough)
      simp [batches, empty]
  | succ fuel ih =>
      cases items with
      | nil => rfl
      | cons item items =>
          have shorter : ((item :: items).drop size).length ≤ fuel := by
            rw [List.length_drop]
            omega
          rw [batches, List.flatten_cons, ih shorter, List.take_append_drop]
          simp

theorem mem_factsFor {args : List Term} :
    args ∈ program.factsFor symbol ↔ { symbol, args } ∈ program.facts := by
  simp only [Program.factsFor, List.mem_map, List.mem_filter, decide_eq_true_eq]
  constructor
  · rintro ⟨fact, ⟨member, rfl⟩, rfl⟩
    exact member
  · intro member
    exact ⟨_, ⟨member, rfl⟩, rfl⟩

theorem mem_loadTasks {size : Nat} {task : Task} :
    task ∈ loadTasks program size ↔ ∃ symbol ∈ program.relations,
      ∃ batch ∈ batches size (program.factsFor symbol).length (program.factsFor symbol),
        .load symbol batch = task := by
  simp only [loadTasks, Program.factGroups, List.mem_flatMap, List.mem_filter, List.mem_map]
  constructor
  · rintro ⟨_, ⟨⟨symbol, declared, rfl⟩, -⟩, batch, isBatch, rfl⟩
    exact ⟨symbol, declared, batch, isBatch, rfl⟩
  · rintro ⟨symbol, declared, batch, isBatch, rfl⟩
    refine ⟨_, ⟨⟨symbol, declared, rfl⟩, ?_⟩, batch, isBatch, rfl⟩
    cases facts : program.factsFor symbol with
    | nil => simp [facts, batches] at isBatch
    | cons => rfl

theorem mem_facts_iff_exists_load (wellFormed : program.WellFormed) {size : Nat} (positive : 0 < size)
    {args : List Term} :
    { symbol, args } ∈ program.facts ↔
      ∃ batch, .load symbol batch ∈ loadTasks program size ∧ args ∈ batch := by
  have inFacts : args ∈ program.factsFor symbol ↔
      ∃ batch ∈ batches size (program.factsFor symbol).length (program.factsFor symbol),
        args ∈ batch := by
    rw [← List.mem_flatten, flatten_batches positive (Nat.le_refl _)]
  rw [← mem_factsFor]
  constructor
  · intro member
    have declared := (wellFormed.facts _ (mem_factsFor.mp member)).declared
    obtain ⟨batch, isBatch, inBatch⟩ := inFacts.mp member
    exact ⟨batch, mem_loadTasks.mpr ⟨symbol, declared, batch, isBatch, rfl⟩, inBatch⟩
  · rintro ⟨batch, isTask, inBatch⟩
    obtain ⟨other, -, _, isBatch, same⟩ := mem_loadTasks.mp isTask
    cases same
    exact inFacts.mpr ⟨batch, isBatch, inBatch⟩

theorem loads_of_mem_loadTasks (wellFormed : program.WellFormed) {size : Nat} (positive : 0 < size)
    (declared : schema.declared = program.relations) {task : Task}
    (member : task ∈ loadTasks program size) : task.Loads schema := by
  obtain ⟨symbol, isDeclared, batch, -, rfl⟩ := mem_loadTasks.mp member
  refine ⟨declared ▸ isDeclared, fun args inBatch => ?_⟩
  have inFacts := (mem_facts_iff_exists_load wellFormed positive).mpr ⟨batch, member, inBatch⟩
  exact (wellFormed.facts _ inFacts).length_eq

/-- Together, the tasks that load a program state its base facts. -/
theorem stated_loadTasks (wellFormed : program.WellFormed) {size : Nat} (positive : 0 < size) :
    {fact | ∃ task ∈ loadTasks program size, fact ∈ task.stated meaning} =
      program.baseModel meaning := by
  ext fact
  constructor
  · rintro ⟨_, member, stated⟩
    obtain ⟨symbol, -, batch, -, rfl⟩ := mem_loadTasks.mp member
    obtain ⟨symbolEq, args, inBatch, assignment, evaluated⟩ := stated
    have inFacts := (mem_facts_iff_exists_load wellFormed positive).mpr ⟨batch, member, inBatch⟩
    exact ⟨_, inFacts, assignment, symbolEq, evaluated⟩
  · rintro ⟨stated, member, assignment, symbolEq, evaluated⟩
    obtain ⟨batch, isTask, inBatch⟩ := (mem_facts_iff_exists_load wellFormed positive).mp member
    exact ⟨_, isTask, symbolEq, stated.args, inBatch, assignment, evaluated⟩

theorem taskSize_pos (config : Config) : 0 < taskSize config :=
  Nat.le_max_right _ _

abbrev loadContext (functions : Registry) (config : Config) : TaskContext where
  functions := functions
  strategy := .rounds
  taskSize := taskSize config

/-- The stores when all tasks that load base facts have run, whether or not one of them has failed. -/
def storesLoaded (program : Program) (context : TaskContext) (schedule : Schedule)
    (workspace : Workspace) : Workspace :=
  let tasks := loadTasks program context.taskSize
  match (Pool.submitAll {} tasks).drain context.run schedule.order tasks.length workspace with
  | none => workspace
  | some (_, last) => last

/-- A run of the tasks that load the base facts of a program, until none of them is left. -/
structure LoadRun (program : Program) (context : TaskContext) (schedule : Schedule)
    (pool later : Pool Task TaskError) (workspace last : Workspace) : Prop where
  queue_eq : pool.queue = loadTasks program context.taskSize
  failures_eq : pool.failures = []
  drained : pool.drain context.run schedule.order pool.queue.length workspace = some (later, last)
  last_eq : last = storesLoaded program context schedule workspace

theorem LoadRun.loads {context : TaskContext} {pool later : Pool Task TaskError}
    {last : Workspace} (loadRun : LoadRun program context schedule pool later workspace last)
    (wellFormed : program.WellFormed) (positive : 0 < context.taskSize)
    (declared : schema.declared = program.relations) : ∀ task ∈ pool.queue, task.Loads schema := by
  rw [loadRun.queue_eq]
  exact fun _ => loads_of_mem_loadTasks wellFormed positive declared

/-- Loading runs the tasks of the base facts and fails with the first task that fails. -/
theorem exists_loadRun (wellFormed : program.WellFormed) (functions : Registry) (config : Config)
    (schedule : Schedule) (workspace : Workspace) :
    ∃ pool later last,
      LoadRun program (loadContext functions config) schedule pool later workspace last ∧
        loadFacts program functions config schedule { workspace } =
          match later.failure with
          | some error => .error (.load error.toEvalError)
          | none => .ok { pool := later, workspace := last } := by
  let context := loadContext functions config
  let tasks := loadTasks program (taskSize config)
  let pool : Pool Task TaskError := Pool.submitAll {} tasks
  let schema : Schema :=
    { declared := program.relations, derived := [], derived_subset := by simp }
  have queueEq : pool.queue = tasks := by simp [pool, Pool.queue_submitAll]
  have isLoad : ∀ task ∈ pool.queue, task.Loads schema := by
    rw [queueEq]
    exact fun _ => loads_of_mem_loadTasks wellFormed (taskSize_pos config) rfl
  have drains : ∃ later last,
      pool.drain context.run schedule.order pool.queue.length workspace = some (later, last) :=
    Pool.exists_drained (Task.Loads schema)
      (fun task workspace loads => context.spawned_run loads workspace) isLoad (Nat.le_refl _)
  obtain ⟨later, last, drained⟩ := drains
  have lastEq : last = storesLoaded program context schedule workspace := by
    rw [queueEq] at drained
    unfold storesLoaded
    dsimp only
    split
    · next stuck => cases stuck.symm.trans drained
    · next ended =>
        cases ended.symm.trans drained
        rfl
  refine ⟨pool, later, last, ⟨queueEq, Pool.failures_submitAll _ _, drained, lastEq⟩, ?_⟩
  rw [queueEq] at drained
  unfold loadFacts
  dsimp only
  split
  · next stuck => cases stuck.symm.trans drained
  · next ended =>
      cases ended.symm.trans drained
      rfl

/-- Loading a program into empty stores leads to its base model. -/
theorem atRest_loadFacts (computes : functions.Computes meaning) (wellFormed : program.WellFormed)
    (declared : schema.declared = program.relations) (empty : workspace.AtRest schema ∅ ∅)
    {machine : Machine}
    (loaded : loadFacts program functions config schedule { workspace } = .ok machine)
    (room : machine.workspace.terms.HasRoom) :
    machine.AtRest schema (program.baseModel meaning) ∅ ∧
      ∀ strategy, machine.workspace.Keeps strategy workspace := by
  have positive := taskSize_pos config
  obtain ⟨pool, later, last, loadRun, outcome⟩ :=
    exists_loadRun wellFormed functions config schedule workspace
  have loading : Loading meaning schema (program.baseModel meaning) workspace pool workspace := by
    refine ⟨loadRun.loads wellFormed positive declared, ∅, ⟨empty, .refl _, .refl _, rfl⟩, ?_⟩
    rw [Set.empty_union, loadRun.queue_eq]
    exact (stated_loadTasks wellFormed positive).symm
  rw [outcome] at loaded
  split at loaded
  · cases loaded
  · next succeeded =>
      cases loaded
      have noFailure : later.failures = [] := List.head?_eq_none_iff.mp succeeded
      obtain ⟨done, idle⟩ := loading.drain computes loadRun.drained noFailure room
      exact ⟨⟨idle, done.atRest⟩, done.keeps⟩

end Evaluation

end Datalog
