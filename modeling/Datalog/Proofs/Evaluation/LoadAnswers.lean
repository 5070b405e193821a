import Datalog.Proofs.Evaluation.LoadFailure

/-!
# What loading comes to

Base facts are loaded in batches.  A batch stops at its first fact that has no value, and the other
batches go on.  Where the results and the failures of functions depend on the structure of the arguments
alone, each batch has a failure of its own or none, whenever it runs: the failures at the end are those of
all batches, and the facts of the batches that have none are stored.  How the facts have been cut into
batches does not matter for the first failure, if the batches run in turn.
-/

namespace Datalog

variable {behaviour : Behaviour} {schema : Schema} {known possible : Model} {workspace : Workspace}
  {context : TaskContext}

/-! ## Failures of facts and of batches -/

/-- Why a base fact cannot be loaded, if it cannot. -/
def Fact.failure? (behaviour : Behaviour) (fact : Fact) : Option EvalError :=
  match Term.answerList behaviour fact.args with
  | .ok _ => none
  | .error error => some (TaskContext.loadError fact error)

theorem Fact.failure?_of_ok {fact : Fact} {values : List Value}
    (answer : Term.answerList behaviour fact.args = .ok values) : fact.failure? behaviour = none := by
  rw [failure?, answer]

theorem Fact.failure?_of_error {fact : Fact} {error : EvalError}
    (answer : Term.answerList behaviour fact.args = .error error) :
    fact.failure? behaviour = some (TaskContext.loadError fact error) := by
  rw [failure?, answer]

theorem Fact.failure?_eq_none_iff {fact : Fact} : fact.failure? behaviour = none ↔
    ¬∃ error, Term.answerList behaviour fact.args = .error error := by
  unfold failure?
  cases Term.answerList behaviour fact.args <;> simp

/-- The facts that some base facts state, as far as they have values. -/
def answered (behaviour : Behaviour) (facts : List Fact) : Model :=
  {fact | ∃ stated ∈ facts, stated.symbol = fact.1 ∧
    Term.answerList behaviour stated.args = .ok fact.2}

theorem answered_append (facts others : List Fact) :
    answered behaviour (facts ++ others) = answered behaviour facts ∪ answered behaviour others := by
  ext fact
  simp only [answered, List.mem_append, or_and_right, exists_or]
  rfl

theorem answered_mono {facts others : List Fact} (included : facts ⊆ others) :
    answered behaviour facts ⊆ answered behaviour others := by
  rintro fact ⟨stated, member, states⟩
  exact ⟨stated, included member, states⟩

theorem answered_cons {stated : Fact} {values : List Value}
    (answer : Term.answerList behaviour stated.args = .ok values) (facts : List Fact) :
    answered behaviour (stated :: facts) =
      {(stated.symbol, values)} ∪ answered behaviour facts := by
  rw [← List.singleton_append, answered_append]
  congr 1
  ext ⟨symbol, others⟩
  simp only [answered, List.mem_singleton, exists_eq_left, answer, Except.ok.injEq,
    Set.mem_singleton_iff, Set.mem_ofPred_eq, Prod.mk.injEq]
  exact and_congr eq_comm eq_comm

namespace Task

/-- The base facts that a task loads, in their order. -/
def facts : Task → List Fact
  | .load symbol facts => facts.map (Fact.mk symbol)
  | _ => []

/-- The failure of a task that loads facts is that of the first of them that has no values. -/
def failure? (behaviour : Behaviour) (task : Task) : Option TaskError :=
  (task.facts.findSome? (Fact.failure? behaviour)).map .failed

theorem failure?_eq_none_iff {task : Task} : task.failure? behaviour = none ↔
    ∀ fact ∈ task.facts, fact.failure? behaviour = none := by
  rw [failure?, Option.map_eq_none_iff, List.findSome?_eq_none_iff]

/-- The first failure of some tasks is the failure of the first of all their facts that has no values. -/
theorem findSome?_failure? (behaviour : Behaviour) (tasks : List Task) :
    tasks.findSome? (failure? behaviour) =
      ((tasks.flatMap facts).findSome? (Fact.failure? behaviour)).map .failed := by
  induction tasks with
  | nil => rfl
  | cons task tasks ih =>
      rw [List.findSome?_cons, List.flatMap_cons, List.findSome?_append, ih, failure?]
      cases task.facts.findSome? (Fact.failure? behaviour) <;> rfl

end Task

/-! ## Running a batch -/

/-- The main store has all relations and holds facts: everything that is known, and nothing that is not
possible. -/
structure Workspace.Stocked (schema : Schema) (known possible : Model) (workspace : Workspace) :
    Prop where
  distinct : workspace.terms.Distinct
  valid : workspace.db.Valid
  registers : ∀ symbol ∈ schema.declared, workspace.db.Registers symbol
  within : workspace.db.Within workspace.terms possible
  includes : workspace.db.Includes workspace.terms known

namespace Workspace.Stocked

variable {symbol : RelationSymbol} {tuple : Tuple} {values : List Value} {terms : TermStore}

theorem of_subset {more : Model} (stocked : workspace.Stocked schema more possible)
    (fewer : known ⊆ more) : workspace.Stocked schema known possible :=
  { stocked with includes := fun fact member => stocked.includes fact (fewer member) }

theorem withTerms (stocked : workspace.Stocked schema known possible) (distinct : terms.Distinct)
    (grown : terms.Extends workspace.terms) :
    ({ workspace with terms } : Workspace).Stocked schema known possible where
  distinct := distinct
  valid := stocked.valid
  registers := stocked.registers
  within := stocked.within.mono grown
  includes := stocked.includes.mono (.refl _) grown

theorem store (stocked : workspace.Stocked schema known possible)
    (declared : symbol ∈ schema.declared) (length : tuple.length = symbol.arity)
    (denotes : workspace.terms.DenotesAll tuple values) (isPossible : (symbol, values) ∈ possible) :
    (workspace.store symbol tuple).2.Stocked schema (known ∪ {(symbol, values)}) possible := by
  have added := (stocked.valid.add length).1
  have registered := stocked.registers symbol declared
  refine ⟨stocked.distinct, added.valid,
    fun other member => added.grows.registers_iff.mpr (stocked.registers other member), ?_, ?_⟩
  · intro other row holds
    rcases (added.holds_iff other row).mp holds with before | ⟨rfl, here, -⟩
    · exact stocked.within other row before
    · obtain rfl := List.mem_singleton.mp here
      exact ⟨values, denotes, isPossible⟩
  · rintro fact (before | rfl)
    · exact stocked.includes.mono added.grows (.refl _) fact before
    · exact ⟨tuple, (added.holds_iff _ _).mpr (.inr ⟨rfl, by simp, registered⟩), denotes⟩

end Workspace.Stocked

namespace TaskContext

variable {symbol : RelationSymbol}

theorem loadFact_answers (follows : context.functions.Follows behaviour) (fact : Fact)
    {store : TermStore} (distinct : store.Distinct) :
    LeavesWithRoom (context.loadFact fact) store
      (fun ids later => later.Distinct ∧ ∃ values,
        Term.answerList behaviour fact.args = .ok values ∧ later.DenotesAll ids values)
      fun failure later => later.Distinct ∧ fact.failure? behaviour = some failure := by
  have answers := Term.normalizeList_answers follows fact.args distinct
  unfold LeavesWithRoom Leaves at answers ⊢
  unfold loadFact
  cases outcome : Term.normalizeList context.functions fact.args store with
  | ok ids later =>
      rw [outcome] at answers
      exact answers
  | error error later =>
      rw [outcome] at answers
      exact fun room => ⟨(answers room).1, Fact.failure?_of_error (answers room).2⟩

/-- A batch stores the facts up to the first that has no values, and fails with the failure of that
one. -/
theorem load_answers (follows : context.functions.Follows behaviour)
    (declared : symbol ∈ schema.declared) {facts : List (List Term)}
    (lengths : ∀ args ∈ facts, args.length = symbol.arity) {state : TaskState}
    (included : answered behaviour (facts.map (Fact.mk symbol)) ⊆ possible)
    (stocked : state.workspace.Stocked schema known possible) :
    LeavesWithRoom (context.load symbol facts) state
      (fun _ later =>
        (facts.map (Fact.mk symbol)).findSome? (Fact.failure? behaviour) = none ∧
          later.workspace.Stocked schema
            (known ∪ answered behaviour (facts.map (Fact.mk symbol))) possible)
      fun failure later => later.workspace.Stocked schema known possible ∧ ∃ error,
        (facts.map (Fact.mk symbol)).findSome? (Fact.failure? behaviour) = some error ∧
          failure = .failed error := by
  induction facts generalizing known state with
  | nil =>
      have nothing : answered behaviour [] = ∅ := by simp [answered]
      exact .pure ⟨rfl, by simpa [nothing] using stocked⟩
  | cons args facts ih =>
      unfold load
      have evaluated := TaskM.ofTermM_leaves_with_room
        ((loadFact_answers follows ⟨symbol, args⟩ stocked.distinct).grown
          (context.interns_loadFact ⟨symbol, args⟩))
      refine .bind (evaluated.mono (fun _ _ done => done) ?_) (fun tuple => ?_) ?_
      · rintro failure _ ⟨error, terms, rfl, ⟨⟨distinct, failed⟩, grown⟩, rfl⟩
        exact ⟨stocked.withTerms distinct grown, error, by simp [failed], rfl⟩
      · exact .bind (TaskM.interns_updateWorkspace fun _ => rfl) fun _ =>
          context.interns_load symbol facts
      rintro tuple _ ⟨terms, ⟨⟨distinct, values, answer, denotes⟩, grown⟩, rfl⟩
      have length : tuple.length = symbol.arity := by
        rw [denotes.length_eq, Term.length_of_answerList answer]
        exact lengths args List.mem_cons_self
      -- The first fact has values: it is stored, and the others decide how the task ends.
      rw [List.map_cons, answered_cons answer] at included
      have stored := (stocked.withTerms distinct grown).store declared length denotes
        (included (.inl rfl))
      refine .modifyGet_bind ?_
      have rest : LeavesWithRoom (context.load symbol facts)
          { state with workspace := ({ state.workspace with terms }.store symbol tuple).2 } _ _ :=
        ih (fun other member => lengths other (List.mem_cons_of_mem _ member))
          (Set.subset_union_right.trans included) stored
      refine rest.mono ?_ ?_
      · rintro _ later ⟨noFailure, stocked⟩
        rw [List.map_cons, answered_cons answer, ← Set.union_assoc]
        exact ⟨by rw [List.findSome?_cons, Fact.failure?_of_ok answer, noFailure], stocked⟩
      · rintro failure later ⟨stocked, error, failed, rfl⟩
        refine ⟨stocked.of_subset Set.subset_union_left, error, ?_, rfl⟩
        rw [List.map_cons, List.findSome?_cons, Fact.failure?_of_ok answer, failed]

/-- A task that loads facts fails with its own failure, and stores its facts if it has none. -/
theorem run_answers (follows : context.functions.Follows behaviour) {task : Task}
    (loads : task.Loads schema) (included : answered behaviour task.facts ⊆ possible)
    (stocked : workspace.Stocked schema known possible)
    (room : (context.run task workspace).state.terms.HasRoom) :
    ((context.run task workspace).outcome = .ok () ∧ task.failure? behaviour = none ∧
        (context.run task workspace).state.Stocked schema (known ∪ answered behaviour task.facts)
          possible) ∨
      ∃ failure, (context.run task workspace).outcome = .error failure ∧
        task.failure? behaviour = some failure ∧
          (context.run task workspace).state.Stocked schema known possible := by
  obtain ⟨symbol, facts, rfl, declared, lengths⟩ := loads.exists_load
  have leaves : LeavesWithRoom (context.steps (.load symbol facts))
      { workspace, substitution := .unbound 0 } _ _ :=
    load_answers follows declared lengths included stocked
  obtain ⟨later, stateEq, -, ended⟩ := exists_ran leaves
  rw [← stateEq] at room ⊢
  rcases ended with ⟨isOk, ended⟩ | ⟨failure, failed, stopped⟩
  · obtain ⟨noFailure, stocked⟩ := ended room
    exact .inl ⟨isOk, Option.map_eq_none_iff.mpr noFailure, stocked⟩
  · obtain ⟨stocked, error, found, rfl⟩ := stopped room
    exact .inr ⟨_, failed, Option.map_eq_some_iff.mpr ⟨error, found, rfl⟩, stocked⟩

end TaskContext

/-! ## Running all batches -/

/-- What holds while some tasks that load facts are being run: the failures so far and those of the tasks
that wait are the failures of all of them, in the same order if the tasks run in turn. -/
structure LoadingAnswers (behaviour : Behaviour) (schema : Schema) (order : Nat → Nat)
    (tasks : List Task) (pool : Pool Task TaskError) (workspace : Workspace) : Prop where
  waits : ∀ task ∈ pool.queue, task ∈ tasks
  failures : (pool.failures ++ pool.queue.filterMap (Task.failure? behaviour)).Perm
    (tasks.filterMap (Task.failure? behaviour))
  inTurn : (∀ number, order number = 0) →
    pool.failures ++ pool.queue.filterMap (Task.failure? behaviour) =
      tasks.filterMap (Task.failure? behaviour)
  stocked : ∃ known,
    workspace.Stocked schema known (answered behaviour (tasks.flatMap Task.facts)) ∧
      (pool.failures = [] → answered behaviour (tasks.flatMap Task.facts) ⊆
        known ∪ answered behaviour (pool.queue.flatMap Task.facts))

namespace LoadingAnswers

variable {order : Nat → Nat} {tasks : List Task} {pool later : Pool Task TaskError} {last : Workspace}

theorem start (noFailures : pool.failures = []) (stocked : workspace.Stocked schema ∅ ∅) :
    LoadingAnswers behaviour schema order pool.queue pool workspace where
  waits _ := id
  failures := by rw [noFailures, List.nil_append]
  inTurn _ := by rw [noFailures, List.nil_append]
  stocked := by
    refine ⟨∅, { stocked with within := fun symbol tuple holds => ?_ },
      fun _ => Set.subset_union_right⟩
    obtain ⟨values, -, known⟩ := stocked.within symbol tuple holds
    exact absurd known (Set.notMem_empty _)

theorem step (follows : context.functions.Follows behaviour)
    (loads : ∀ task ∈ tasks, task.Loads schema)
    (stepEq : pool.step context.run order workspace = some (later, last))
    (room : last.terms.HasRoom)
    (loading : LoadingAnswers behaviour schema order tasks pool workspace) :
    LoadingAnswers behaviour schema order tasks later last := by
  obtain ⟨task, started, takeEq, queueEq, stepped⟩ := Pool.exists_taken stepEq
  have isTask := loading.waits task stepped.taken
  have nothing := context.spawned_run (loads task isTask) workspace
  rw [nothing, List.append_nil] at queueEq
  obtain ⟨known, stocked, all⟩ := loading.stocked
  have included : answered behaviour task.facts ⊆
      answered behaviour (tasks.flatMap Task.facts) :=
    answered_mono fun fact member => List.mem_flatMap.mpr ⟨task, isTask, member⟩
  have ran := context.run_answers follows (loads task isTask) included stocked
    (stepped.state_eq ▸ room)
  rw [← stepped.state_eq] at ran
  have failuresEq : later.failures = pool.failures ++ (task.failure? behaviour).toList := by
    rcases ran with ⟨isOk, noFailure, -⟩ | ⟨failure, failed, isFailure, -⟩
    · simp [stepped.ok isOk, noFailure]
    · simp [stepped.error failure failed, isFailure]
  -- The failure of the task moves from those that are to come to those that there are.
  have moved : later.failures ++ later.queue.filterMap (Task.failure? behaviour) =
      pool.failures ++ (task :: started.queue).filterMap (Task.failure? behaviour) := by
    rw [failuresEq, queueEq, List.append_assoc, List.filterMap_cons]
    cases task.failure? behaviour <;> rfl
  refine ⟨fun other member => loading.waits other (stepped.waited nothing member), ?_, ?_, ?_⟩
  · rw [moved]
    have taken := (Pool.take?_eq_some takeEq).1
    exact ((taken.filterMap _).append_left _).trans loading.failures
  · intro first
    rw [first] at takeEq
    rw [moved, ← Pool.take?_zero takeEq]
    exact loading.inTurn first
  · rcases ran with ⟨isOk, -, stocked⟩ | ⟨failure, failed, -, stocked⟩
    · refine ⟨_, stocked, fun noFailure fact stated => ?_⟩
      rw [stepped.ok isOk] at noFailure
      rcases all noFailure stated with before | ⟨source, waits, states⟩
      · exact .inl (.inl before)
      · obtain ⟨other, inQueue, member⟩ := List.mem_flatMap.mp waits
        rcases stepped.before other inQueue with rfl | left
        · exact .inl (.inr ⟨source, member, states⟩)
        · exact .inr ⟨source, List.mem_flatMap.mpr ⟨other, left, member⟩, states⟩
    · exact ⟨known, stocked, by simp [stepped.error failure failed]⟩

/-- When all tasks have run, there are the failures of all of them, and if there are none, all facts have
been stored. -/
theorem drain (follows : context.functions.Follows behaviour)
    (loads : ∀ task ∈ tasks, task.Loads schema) {fuel : Nat}
    (drained : pool.drain context.run order fuel workspace = some (later, last))
    (loading : LoadingAnswers behaviour schema order tasks pool workspace)
    (room : last.terms.HasRoom) :
    later.failures.Perm (tasks.filterMap (Task.failure? behaviour)) ∧
      ((∀ number, order number = 0) →
        later.failures = tasks.filterMap (Task.failure? behaviour)) ∧
      (later.failures = [] → last.Stocked schema (answered behaviour (tasks.flatMap Task.facts))
        (answered behaviour (tasks.flatMap Task.facts))) := by
  have ended := TaskContext.drain_with_room_of_step
    (fun stepEq room => LoadingAnswers.step follows loads stepEq room) drained loading room
  have idle := Pool.queue_eq_nil_of_drain drained
  obtain ⟨known, stocked, all⟩ := ended.stocked
  refine ⟨by simpa [idle] using ended.failures, by simpa [idle] using ended.inTurn, ?_⟩
  intro noFailure
  have all := all noFailure
  rw [idle] at all
  exact stocked.of_subset (by simpa [answered] using all)

end LoadingAnswers

/-! ## Loading a program -/

/-- The base facts of a program in the order in which they are loaded: relation by relation as these are
declared, and within a relation as they were added. -/
def Program.listed (program : Program) : List Fact :=
  program.relations.flatMap fun symbol => (program.factsFor symbol).map (Fact.mk symbol)

theorem Program.WellFormed.mem_listed {program : Program} (wellFormed : program.WellFormed)
    {fact : Fact} : fact ∈ program.listed ↔ fact ∈ program.facts := by
  simp only [listed, List.mem_flatMap, List.mem_map, Evaluation.mem_factsFor]
  constructor
  · rintro ⟨symbol, -, args, member, rfl⟩
    exact member
  · intro member
    exact ⟨fact.symbol, (wellFormed.facts fact member).declared, fact.args, member, rfl⟩

namespace Evaluation

variable {program : Program} {functions : Registry} {config : Config} {schedule : Schedule}

/-- Together the batches hold the base facts in their order, wherever they have been cut. -/
theorem flatMap_facts_loadTasks (program : Program) {size : Nat} (positive : 0 < size) :
    (loadTasks program size).flatMap Task.facts = program.listed := by
  have ofGroup : ∀ symbol, (((batches size (program.factsFor symbol).length
      (program.factsFor symbol)).map (Task.load symbol)).flatMap Task.facts) =
        (program.factsFor symbol).map (Fact.mk symbol) := by
    intro symbol
    have whole := @flatten_batches _ _ positive _ (program.factsFor symbol) (Nat.le_refl _)
    conv_rhs => rw [← whole, List.map_flatten]
    rw [List.flatMap_map, List.flatMap_def]
    rfl
  unfold loadTasks Program.factGroups Program.listed
  induction program.relations with
  | nil => rfl
  | cons symbol symbols ih =>
      rw [List.map_cons, List.filter_cons, List.flatMap_cons, ← ofGroup symbol, ← ih]
      split
      · rw [List.flatMap_cons, List.flatMap_append]
      · next empty =>
          have none : program.factsFor symbol = [] := by simpa using empty
          simp [none, batches]

theorem answered_listed (wellFormed : program.WellFormed) :
    answered behaviour program.listed = answered behaviour program.facts := by
  ext fact
  simp only [answered, wellFormed.mem_listed]

/-- What loading the base facts of a program into empty stores comes to. -/
def Loads (behaviour : Behaviour) (schema : Schema) (program : Program) (schedule : Schedule) :
    Except RunError Machine → Prop
  | .ok machine => (∀ fact ∈ program.facts, fact.failure? behaviour = none) ∧
      machine.workspace.Stocked schema (answered behaviour program.facts)
        (answered behaviour program.facts)
  | .error failure => ∃ error, failure = .load error ∧
      (∃ fact ∈ program.facts, fact.failure? behaviour = some error) ∧
        ((∀ number, schedule.order number = 0) →
          program.listed.findSome? (Fact.failure? behaviour) = some error)

/-- Loading ends well exactly if all base facts have values, and then stores what they state.  Otherwise
it fails with the failure of one of them; of the first, if the batches run in turn. -/
theorem loadFacts_answers (wellFormed : program.WellFormed) (follows : functions.Follows behaviour)
    (declared : schema.declared = program.relations) (stocked : workspace.Stocked schema ∅ ∅)
    (room : (storesLoaded program (loadContext functions config) schedule workspace).terms.HasRoom) :
    Loads behaviour schema program schedule
      (loadFacts program functions config schedule { workspace }) := by
  have positive := taskSize_pos config
  obtain ⟨pool, later, last, loadRun, outcome⟩ :=
    exists_loadRun wellFormed functions config schedule workspace
  obtain ⟨failures, inTurn, stored⟩ :=
    (LoadingAnswers.start loadRun.failures_eq stocked).drain follows
      (loadRun.loads wellFormed positive declared) loadRun.drained (loadRun.last_eq ▸ room)
  have facts : pool.queue.flatMap Task.facts = program.listed := by
    rw [loadRun.queue_eq]
    exact flatMap_facts_loadTasks program positive
  rw [facts, answered_listed wellFormed] at stored
  rw [outcome]
  cases failureEq : later.failure with
  | none =>
      have noFailure : later.failures = [] := List.head?_eq_none_iff.mp failureEq
      refine ⟨fun fact member => ?_, stored noFailure⟩
      rw [noFailure, List.nil_perm, List.filterMap_eq_nil_iff] at failures
      rw [← wellFormed.mem_listed, ← facts] at member
      obtain ⟨task, inQueue, member⟩ := List.mem_flatMap.mp member
      exact Task.failure?_eq_none_iff.mp (failures task inQueue) fact member
  | some failure =>
      have isFailure : failure ∈ pool.queue.filterMap (Task.failure? behaviour) :=
        failures.mem_iff.mp (List.mem_of_mem_head? failureEq)
      obtain ⟨task, inQueue, taskFails⟩ := List.mem_filterMap.mp isFailure
      obtain ⟨error, found, rfl⟩ := Option.map_eq_some_iff.mp taskFails
      obtain ⟨fact, member, fails⟩ := List.exists_of_findSome?_eq_some found
      refine ⟨error, rfl, ⟨fact, ?_, fails⟩, fun first => ?_⟩
      · rw [← wellFormed.mem_listed, ← facts]
        exact List.mem_flatMap.mpr ⟨task, inQueue, member⟩
      · have head : pool.queue.findSome? (Task.failure? behaviour) = some (.failed error) := by
          rw [← List.head?_filterMap, ← inTurn first]
          exact failureEq
        rw [Task.findSome?_failure?, facts] at head
        obtain ⟨first, found, same⟩ := Option.map_eq_some_iff.mp head
        rw [found, TaskError.failed.inj same]

end Evaluation

end Datalog
