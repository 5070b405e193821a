import Datalog.Proofs.Evaluation.Load
import Datalog.Proofs.Evaluation.Normalization

/-!
# Facts that cannot be loaded

Loading fails with the failure of a base fact, and if it succeeds, every base fact has been evaluated.
The terms in which a fact is evaluated depend on what has been interned before, which a function may
look at; functions that look at the structure of their arguments only give each fact one answer.
-/

namespace Datalog

variable {functions : Registry} {store terms : TermStore}

/-- If functions look at the structure of arguments only, every term is stored once unless the terms
have run full. -/
def Registry.Trusts (functions : Registry) (store : TermStore) : Prop :=
  ∀ behaviour, functions.Follows behaviour → store.HasRoom → store.Distinct

theorem TermStore.Distinct.trusted (distinct : store.Distinct) : functions.Trusts store :=
  fun _ _ _ => distinct

theorem Term.normalizeList_trusted (args : List Term) (trusted : functions.Trusts store) :
    Leaves (normalizeList functions args) store (fun _ later => functions.Trusts later)
      fun _ later => functions.Trusts later := by
  have grown := interns_normalizeList functions args store
  have answers : ∀ behaviour, functions.Follows behaviour → store.HasRoom →
      LeavesWithRoom (normalizeList functions args) store (fun _ later => later.Distinct)
        fun _ later => later.Distinct := fun behaviour follows room =>
    (normalizeList_answers follows args (trusted behaviour follows room)).mono
      (fun _ _ done => done.1) fun _ _ stopped => stopped.1
  cases outcome : normalizeList functions args store with
  | ok ids later =>
      simp only [Leaves, outcome] at grown ⊢
      exact fun behaviour follows room =>
        (answers behaviour follows (grown.hasRoom room)).of_ok outcome room
  | error error later =>
      simp only [Leaves, outcome] at grown ⊢
      exact fun behaviour follows room =>
        (answers behaviour follows (grown.hasRoom room)).of_error outcome room

/-- The arguments of a fact have been evaluated on the way to some terms. -/
def HasNormalized (functions : Registry) (args : List Term) (terms : TermStore) : Prop :=
  ∃ store ids later, functions.Trusts store ∧
    Term.normalizeList functions args store = .ok ids later ∧ terms.Extends later

theorem HasNormalized.mono {args : List Term} (normalized : HasNormalized functions args terms)
    {later : TermStore} (grown : later.Extends terms) : HasNormalized functions args later := by
  obtain ⟨store, ids, middle, trusted, outcome, extended⟩ := normalized
  exact ⟨store, ids, middle, trusted, outcome, grown.trans extended⟩

/-- The evaluation of some arguments fails. -/
def FailsToNormalize (functions : Registry) (args : List Term) (error : EvalError)
    (later : TermStore) : Prop :=
  ∃ store, functions.Trusts store ∧ Term.normalizeList functions args store = .error error later

namespace Term

mutual

/-- A ground term without calls is interned, whatever is there. -/
theorem normalize_of_callFree (functions : Registry) : (term : Term) → term.isGround = true →
    term.containsCall = false → (store : TermStore) →
      ∃ id later, term.normalize functions store = .ok id later
  | .var _, ground, _, _ => by cases ground
  | .bool _, _, _, _ | .int _, _, _, _ | .str _, _, _, _ => by
      unfold normalize
      exact ⟨_, _, rfl⟩
  | .ctor name args, ground, noCall, store => by
      obtain ⟨ids, middle, evaluated⟩ := normalizeList_of_callFree functions args ground noCall store
      unfold normalize
      exact ⟨_, _, bind_eq_ok.mpr ⟨ids, middle, evaluated, rfl⟩⟩
  | .call _ _, _, noCall, _ => by cases noCall

theorem normalizeList_of_callFree (functions : Registry) : (terms : List Term) →
    isGroundList terms = true → containsCallList terms = false → (store : TermStore) →
      ∃ ids later, normalizeList functions terms store = .ok ids later
  | [], _, _, store => by
      unfold normalizeList
      exact ⟨[], store, rfl⟩
  | term :: terms, ground, noCall, store => by
      obtain ⟨groundFirst, groundRest⟩ := Bool.and_eq_true_iff.mp ground
      obtain ⟨noCallFirst, noCallRest⟩ := Bool.or_eq_false_iff.mp noCall
      obtain ⟨id, middle, first⟩ := normalize_of_callFree functions term groundFirst noCallFirst store
      obtain ⟨ids, later, rest⟩ :=
        normalizeList_of_callFree functions terms groundRest noCallRest middle
      unfold normalizeList
      exact ⟨id :: ids, later,
        bind_eq_ok.mpr ⟨id, middle, first, bind_eq_ok.mpr ⟨ids, later, rest, rfl⟩⟩⟩

end

end Term

theorem FailsToNormalize.containsCall {args : List Term} {error : EvalError} {later : TermStore}
    (fails : FailsToNormalize functions args error later) (ground : Term.isGroundList args = true) :
    Term.containsCallList args = true := by
  obtain ⟨store, -, failed⟩ := fails
  by_contra noCall
  obtain ⟨ids, later, evaluated⟩ :=
    Term.normalizeList_of_callFree functions args ground (by simpa using noCall) store
  rw [failed] at evaluated
  cases evaluated

/-! ## Tasks that load facts -/

theorem TaskM.ofTermM_leaves {α : Type} {computation : TermM α} {state : TaskState}
    {done : α → TermStore → Prop} {stopped : EvalError → TermStore → Prop}
    (leaves : Leaves computation state.workspace.terms done stopped) :
    Leaves (TaskM.ofTermM computation) state
      (fun value later => ∃ terms, done value terms ∧
        later = { state with workspace := { state.workspace with terms } })
      fun failure later => ∃ error terms, failure = .failed error ∧ stopped error terms ∧
        later = { state with workspace := { state.workspace with terms } } := by
  unfold Leaves at leaves ⊢
  unfold TaskM.ofTermM TaskM.ofBindM BindM.ofTermM
  cases outcome : computation state.workspace.terms with
  | ok value later =>
      rw [outcome] at leaves
      exact ⟨later, leaves, rfl⟩
  | error error later =>
      rw [outcome] at leaves
      exact ⟨error, later, rfl, leaves, rfl⟩

theorem TaskM.ofTermM_leaves_with_room {α : Type} {computation : TermM α} {state : TaskState}
    {done : α → TermStore → Prop} {stopped : EvalError → TermStore → Prop}
    (leaves : LeavesWithRoom computation state.workspace.terms done stopped) :
    LeavesWithRoom (TaskM.ofTermM computation) state
      (fun value later => ∃ terms, done value terms ∧
        later = { state with workspace := { state.workspace with terms } })
      fun failure later => ∃ error terms, failure = .failed error ∧ stopped error terms ∧
        later = { state with workspace := { state.workspace with terms } } := by
  refine (ofTermM_leaves leaves).mono ?_ ?_
  · rintro value _ ⟨terms, isDone, rfl⟩ room
    exact ⟨terms, isDone room, rfl⟩
  · rintro failure _ ⟨error, terms, rfl, isStopped, rfl⟩ room
    exact ⟨error, terms, rfl, isStopped room, rfl⟩

/-- A task fails because of a fact. -/
def TaskContext.FailsFor (context : TaskContext) (fact : Fact) (failure : TaskError) : Prop :=
  ∃ error later, failure = .failed (loadError fact error) ∧
    FailsToNormalize context.functions fact.args error later

namespace TaskContext

variable {context : TaskContext} {symbol : RelationSymbol}

theorem loadFact_tells (fact : Fact) (trusted : context.functions.Trusts store) :
    Leaves (context.loadFact fact) store
      (fun _ later => context.functions.Trusts later ∧
        HasNormalized context.functions fact.args later)
      fun failure later => context.functions.Trusts later ∧
        ∃ error, failure = loadError fact error ∧
          FailsToNormalize context.functions fact.args error later := by
  have trustedLater := Term.normalizeList_trusted fact.args trusted
  unfold Leaves at trustedLater ⊢
  unfold loadFact
  cases outcome : Term.normalizeList context.functions fact.args store with
  | ok ids later =>
      rw [outcome] at trustedLater
      exact ⟨trustedLater, store, ids, later, trusted, outcome, .refl later⟩
  | error error later =>
      rw [outcome] at trustedLater
      exact ⟨trustedLater, error, rfl, store, trusted, outcome⟩

/-- Loading facts evaluates all of them or fails because of one. -/
theorem load_tells {facts : List (List Term)} {state : TaskState}
    (trusted : context.functions.Trusts state.workspace.terms) :
    Leaves (context.load symbol facts) state
      (fun _ later => context.functions.Trusts later.workspace.terms ∧
        ∀ args ∈ facts, HasNormalized context.functions args later.workspace.terms)
      fun failure later => context.functions.Trusts later.workspace.terms ∧
        ∃ args ∈ facts, context.FailsFor { symbol, args } failure := by
  induction facts generalizing state with
  | nil => exact ⟨trusted, by simp⟩
  | cons args facts ih =>
      unfold load
      rw [leaves_bind]
      refine (TaskM.ofTermM_leaves (loadFact_tells { symbol, args } trusted)).mono ?_ ?_
      · rintro tuple _ ⟨terms, ⟨trustedMiddle, normalized⟩, rfl⟩
        let next : TaskState :=
          { state with workspace := ({ state.workspace with terms }.store symbol tuple).2 }
        have rest : Leaves (context.load symbol facts) next _ _ := ih trustedMiddle
        have grown := context.interns_load symbol facts next
        rw [leaves_bind]
        refine (rest.and grown).mono ?_ ?_
        · rintro _ later ⟨⟨trustedLater, normalizedRest⟩, extended⟩
          exact ⟨trustedLater, List.forall_mem_cons.mpr ⟨normalized.mono extended, normalizedRest⟩⟩
        · rintro failure later ⟨⟨trustedLater, other, member, fails⟩, -⟩
          exact ⟨trustedLater, other, List.mem_cons_of_mem _ member, fails⟩
      · rintro failure _ ⟨_, terms, rfl, ⟨trustedLater, error, rfl, fails⟩, rfl⟩
        exact ⟨trustedLater, args, List.mem_cons_self, error, terms, rfl, fails⟩

end TaskContext

/-! ## Loading a program -/

/-- What is known while the facts of some tasks are being loaded. -/
structure LoadingTells (context : TaskContext) (tasks : List Task) (pool : Pool Task TaskError)
    (workspace : Workspace) : Prop where
  trusted : context.functions.Trusts workspace.terms
  waits : ∀ task ∈ pool.queue, task ∈ tasks
  normalized : pool.failures = [] → ∀ symbol facts, .load symbol facts ∈ tasks →
    .load symbol facts ∈ pool.queue ∨
      ∀ args ∈ facts, HasNormalized context.functions args workspace.terms
  failed : ∀ failure ∈ pool.failures, ∃ symbol facts, .load symbol facts ∈ tasks ∧
    ∃ args ∈ facts, context.FailsFor { symbol, args } failure

theorem LoadingTells.step {context : TaskContext} {schema : Schema} {tasks : List Task}
    (loads : ∀ task ∈ tasks, task.Loads schema) {pool later : Pool Task TaskError} {task : Task}
    {workspace last : Workspace} (stepped : Pool.Stepped context.run task pool later workspace last)
    (tells : LoadingTells context tasks pool workspace) : LoadingTells context tasks later last := by
  have isTask := tells.waits task stepped.taken
  have nothing := context.spawned_run (loads task isTask) workspace
  have waits : ∀ other ∈ later.queue, other ∈ tasks := fun other member =>
    tells.waits other (stepped.waited nothing member)
  have grown := context.extends_run task workspace
  rw [← stepped.state_eq] at grown
  obtain ⟨symbol, facts, rfl, -⟩ := (loads task isTask).exists_load
  let start : TaskState := { workspace, substitution := .unbound 0 }
  have told : Leaves (context.steps (.load symbol facts)) start _ _ :=
    context.load_tells tells.trusted
  obtain ⟨state, stateEq, -, ended⟩ := TaskContext.exists_ran told
  obtain rfl := stateEq.trans stepped.state_eq.symm
  rcases ended with ⟨isOk, trusted, normalized⟩ | ⟨failure, failed, trusted, args, inFacts, fails⟩
  · have sameFailures := stepped.ok isOk
    refine ⟨trusted, waits, fun noFailure other otherFacts isOther => ?_,
      fun failure member => tells.failed failure (sameFailures ▸ member)⟩
    rcases tells.normalized (sameFailures ▸ noFailure) other otherFacts isOther with waiting | done
    · rcases stepped.before _ waiting with same | left
      · cases same
        exact .inr normalized
      · exact .inl left
    · exact .inr fun args member => (done args member).mono grown
  · have moreFailures := stepped.error failure failed
    refine ⟨trusted, waits, fun noFailure => ?_, fun other member => ?_⟩
    · simp [moreFailures] at noFailure
    · rcases List.mem_append.mp (moreFailures ▸ member) with before | here
      · exact tells.failed other before
      · obtain rfl := List.mem_singleton.mp here
        exact ⟨symbol, facts, isTask, args, inFacts, fails⟩

namespace Evaluation

variable {program : Program} {workspace : Workspace}

end Evaluation

end Datalog
