import Datalog.Proofs.Evaluation.Load

/-!
# Stores whose tuples have the right number of columns

Whatever a task reads from a store has as many columns as its relation, however the view was made and
split, and whatever the stores hold when a lazy range is read.  Storing, merging and loading keep this
true, also when a task stops.
-/

namespace Datalog

/-! ## Views -/

/-- The tuples that a view has copied meet a condition. -/
def View.Copies (condition : Tuple → Prop) : View → Prop
  | .array tuples => ∀ tuple ∈ tuples, condition tuple
  | .range .. => True

/-- The tuples that a view has copied have a given number of columns. -/
def View.Sized (arity : Nat) : View → Prop
  | .array tuples => ∀ tuple ∈ tuples, tuple.length = arity
  | .range .. => True

theorem View.sized_iff_copies {arity : Nat} {view : View} :
    view.Sized arity ↔ view.Copies fun tuple => tuple.length = arity := by
  cases view <;> rfl

section Views

variable {condition : Tuple → Prop} {arity : Nat} {index : Index} {limits : ViewLimits}

theorem Index.copies_view (entries : ∀ entry ∈ index.entries, condition entry.tuple)
    (limits : ViewLimits) (keys : KeyRange) : (index.view limits keys).Copies condition := by
  unfold view
  dsimp only
  split
  · intro tuple member
    obtain ⟨entry, inFront, rfl⟩ := List.mem_map.mp member
    exact entries entry (mem_entriesIn.mp (List.mem_of_mem_take inFront)).1
  · trivial

/-- The tuples that a view reads from an index meet a condition if the copied ones and those of the index
do. -/
theorem View.Copies.of_mem_tuples {view : View} (copies : view.Copies condition)
    (entries : ∀ entry ∈ index.entries, condition entry.tuple) {tuple : Tuple}
    (member : tuple ∈ view.tuples index) : condition tuple := by
  cases view with
  | array tuples => exact copies tuple member
  | range keys count =>
      obtain ⟨entry, inRange, rfl⟩ := List.mem_map.mp member
      exact entries entry (Index.mem_entriesIn.mp inRange).1

theorem View.copies_split (entries : ∀ entry ∈ index.entries, condition entry.tuple)
    {view left right : View} (copies : view.Copies condition) {draws : Draws}
    (splitEq : (view.split index limits draws).1 = some (left, right)) :
    left.Copies condition ∧ right.Copies condition := by
  have copiesPart : ∀ keys count, (Split.part index limits keys count).Copies condition := by
    intro keys count
    unfold Split.part
    split
    · exact Index.copies_view entries limits keys
    · trivial
  cases view with
  | array tuples =>
      simp only [split] at splitEq
      split at splitEq
      · cases splitEq
      · cases splitEq
        exact ⟨fun tuple member => copies tuple (List.mem_of_mem_take member),
          fun tuple member => copies tuple (List.mem_of_mem_drop member)⟩
  | range keys count =>
      simp only [split] at splitEq
      split at splitEq
      · split at splitEq
        · cases splitEq
        · obtain ⟨middle, -, partsEq⟩ := Option.map_eq_some_iff.mp splitEq
          obtain ⟨rfl, rfl⟩ := Prod.mk.inj partsEq
          exact ⟨copiesPart _ _, copiesPart _ _⟩
      · cases splitEq

theorem View.sized_split (lengths : ∀ entry ∈ index.entries, entry.tuple.length = arity)
    {view left right : View} (sized : view.Sized arity) {draws : Draws}
    (splitEq : (view.split index limits draws).1 = some (left, right)) :
    left.Sized arity ∧ right.Sized arity := by
  rw [sized_iff_copies] at sized ⊢
  rw [sized_iff_copies]
  exact copies_split lengths sized splitEq

end Views

/-! ## Stores -/

/-- What is listed of a relation is held, whatever the limits are. -/
theorem FactStore.holds_of_mem_tuplesOf {store : FactStore} {symbol : RelationSymbol} {tuple : Tuple}
    (member : tuple ∈ store.tuplesOf symbol) : store.Holds symbol tuple := by
  have entries : ∀ entry ∈ (store.masterOf symbol).entries, store.Holds symbol entry.tuple :=
    fun entry inMaster => mem_masterOf_tuples.mp (List.mem_map_of_mem inMaster)
  exact (Index.copies_view entries store.limits {}).of_mem_tuples entries member

namespace FactStore.Valid

variable {store source : FactStore} {symbol : RelationSymbol} {tuple : Tuple}

/-- The tuples of whatever index is read are held. -/
theorem holds_of_read (valid : store.Valid) (symbol : RelationSymbol) (number : Nat) :
    ∀ entry ∈ ((store.index? symbol number).getD default).entries,
      store.Holds symbol entry.tuple := by
  cases indexEq : store.index? symbol number with
  | none =>
      intro entry member
      cases member
  | some index => exact fun _ => valid.holds_of_entry indexEq

theorem index_lengths (valid : store.Valid) (symbol : RelationSymbol) (number : Nat) :
    ∀ entry ∈ ((store.index? symbol number).getD default).entries,
      entry.tuple.length = symbol.arity :=
  fun entry member => valid.length_of_holds (valid.holds_of_read symbol number entry member)

/-- A lookup copies tuples that the store holds. -/
theorem copies_get (valid : store.Valid) {condition : Tuple → Prop}
    (held : ∀ tuple, store.Holds symbol tuple → condition tuple) (number : Nat) (key : Key) :
    (store.get symbol number key).Copies condition := by
  unfold get
  split
  · next index indexEq =>
      exact Index.copies_view (fun _ member => held _ (valid.holds_of_entry indexEq member))
        store.limits _
  · intro tuple member
    cases member

theorem sized_get (valid : store.Valid) (symbol : RelationSymbol) (number : Nat) (key : Key) :
    (store.get symbol number key).Sized symbol.arity :=
  View.sized_iff_copies.mpr (valid.copies_get (fun _ => valid.length_of_holds) number key)

theorem length_of_mem_tuplesOf (valid : store.Valid) (member : tuple ∈ store.tuplesOf symbol) :
    tuple.length = symbol.arity :=
  valid.length_of_holds (holds_of_mem_tuplesOf member)

theorem mergeInto (valid : store.Valid) (sourceValid : source.Valid)
    (symbols : List RelationSymbol) :
    (FixpointContext.mergeInto source symbols store).2.Valid := by
  induction symbols generalizing store with
  | nil => exact valid
  | cons symbol symbols ih =>
      exact ih (valid.addAll fun _ member => sourceValid.length_of_mem_tuplesOf member).valid

end FactStore.Valid

structure Workspace.StoresValid (workspace : Workspace) : Prop where
  db : workspace.db.Valid
  delta : workspace.delta.Valid
  nextDelta : workspace.nextDelta.Valid

namespace Workspace.StoresValid

variable {workspace : Workspace} {symbol : RelationSymbol} {tuple : Tuple}
  {context : FixpointContext}

theorem storeFor (valid : workspace.StoresValid) (context : TaskContext) (atom : PlanAtom) :
    (context.storeFor atom workspace).Valid := by
  unfold TaskContext.storeFor
  split
  · split
    · exact valid.delta
    · exact valid.db
  · exact valid.db

theorem store (valid : workspace.StoresValid) (length : tuple.length = symbol.arity) :
    (workspace.store symbol tuple).2.StoresValid :=
  { valid with db := (valid.db.add length).1.valid }

theorem collect (valid : workspace.StoresValid) (length : tuple.length = symbol.arity) :
    (workspace.collect symbol tuple).2.StoresValid := by
  unfold Workspace.collect
  split
  · exact valid
  · exact { valid with nextDelta := (valid.nextDelta.add length).1.valid }

theorem seed (valid : workspace.StoresValid) : (context.seed workspace).StoresValid :=
  { valid with
    delta := valid.delta.clear.mergeInto valid.db context.symbols
    nextDelta := valid.nextDelta.clear }

theorem merge (valid : workspace.StoresValid) : (context.merge workspace).2.StoresValid where
  db := valid.db.mergeInto valid.nextDelta context.symbols
  delta := valid.nextDelta
  nextDelta := valid.delta.clear

end Workspace.StoresValid

/-! ## Loading -/

theorem Term.length_normalizeList {functions : Registry} (args : List Term) (store : TermStore) :
    Leaves (normalizeList functions args) store (fun ids _ => ids.length = args.length)
      fun _ _ => True := by
  induction args generalizing store with
  | nil =>
      unfold normalizeList
      exact rfl
  | cons arg args ih =>
      have first : Leaves (arg.normalize functions) store (fun _ _ => True) fun _ _ => True := by
        unfold Leaves
        split <;> trivial
      unfold normalizeList
      refine first.bind fun id middle _ => (ih middle).bind fun ids later length => ?_
      exact congrArg (· + 1) length

/-- Facts may have been stored: the stores are valid, and those of the deltas are as they were. -/
structure Workspace.KeepsDeltas (later earlier : Workspace) : Prop where
  valid : later.StoresValid
  delta_eq : later.delta = earlier.delta
  nextDelta_eq : later.nextDelta = earlier.nextDelta

theorem Workspace.KeepsDeltas.trans {first second third : Workspace}
    (right : third.KeepsDeltas second) (left : second.KeepsDeltas first) : third.KeepsDeltas first :=
  ⟨right.valid, right.delta_eq.trans left.delta_eq, right.nextDelta_eq.trans left.nextDelta_eq⟩

theorem TaskM.ofTermM_keepsDeltas {α : Type} {computation : TermM α} {state : TaskState}
    {done : α → Prop}
    (leaves : Leaves computation state.workspace.terms (fun value _ => done value)
      fun _ _ => True) (valid : state.workspace.StoresValid) :
    Leaves (TaskM.ofTermM computation) state
      (fun value later => done value ∧ later.workspace.KeepsDeltas state.workspace)
      fun _ later => later.workspace.KeepsDeltas state.workspace := by
  unfold Leaves at leaves ⊢
  unfold TaskM.ofTermM TaskM.ofBindM BindM.ofTermM
  cases outcome : computation state.workspace.terms with
  | ok value terms =>
      rw [outcome] at leaves
      exact ⟨leaves, { valid with }, rfl, rfl⟩
  | error error terms => exact ⟨{ valid with }, rfl, rfl⟩

namespace TaskContext

variable {context : TaskContext} {symbol : RelationSymbol}

theorem length_loadFact (context : TaskContext) (fact : Fact) (store : TermStore) :
    Leaves (context.loadFact fact) store (fun ids _ => ids.length = fact.args.length)
      fun _ _ => True := by
  have length : Leaves (Term.normalizeList context.functions fact.args) store _ _ :=
    Term.length_normalizeList fact.args store
  unfold Leaves at length ⊢
  unfold loadFact
  cases outcome : Term.normalizeList context.functions fact.args store with
  | ok ids later =>
      rw [outcome] at length
      exact length
  | error error later => trivial

theorem load_keepsDeltas {facts : List (List Term)}
    (lengths : ∀ args ∈ facts, args.length = symbol.arity) {state : TaskState}
    (valid : state.workspace.StoresValid) :
    Leaves (context.load symbol facts) state
      (fun _ later => later.workspace.KeepsDeltas state.workspace)
      fun _ later => later.workspace.KeepsDeltas state.workspace := by
  induction facts generalizing state with
  | nil => exact ⟨valid, rfl, rfl⟩
  | cons args facts ih =>
      have length := context.length_loadFact { symbol, args } state.workspace.terms
      refine (TaskM.ofTermM_keepsDeltas length valid).bind ?_
      rintro tuple middle ⟨length, kept⟩
      rw [leaves_bind, TaskM.updateWorkspace, leaves_modifyGet]
      let next : TaskState := { middle with workspace := (middle.workspace.store symbol tuple).2 }
      have stored : next.workspace.KeepsDeltas state.workspace :=
        ⟨kept.valid.store (length.trans (lengths args List.mem_cons_self)), kept.delta_eq,
          kept.nextDelta_eq⟩
      have rest : Leaves (context.load symbol facts) next _ _ :=
        ih (fun other member => lengths other (List.mem_cons_of_mem _ member)) stored.valid
      exact rest.mono (fun _ _ kept => kept.trans stored) fun _ _ kept => kept.trans stored

/-- A task that loads facts stores them in the main store, whether it ends or stops. -/
theorem run_keepsDeltas (context : TaskContext) {schema : Schema} {task : Task} (loads : task.Loads schema)
    {workspace : Workspace} (valid : workspace.StoresValid) :
    (context.run task workspace).state.KeepsDeltas workspace := by
  obtain ⟨symbol, facts, rfl, -, lengths⟩ := loads.exists_load
  let start : TaskState := { workspace, substitution := .unbound 0 }
  have leaves : Leaves (context.steps (.load symbol facts)) start _ _ := load_keepsDeltas lengths valid
  obtain ⟨later, stateEq, -, kept⟩ := exists_ran_of_kept leaves
  exact stateEq ▸ kept

end TaskContext

/-- Loading a program keeps the stores valid and the deltas as they are, and no task waits or has failed
when it is done. -/
theorem Evaluation.keepsDeltas_loadFacts {program : Program} {functions : Registry} {config : Config}
    {schedule : Schedule} {schema : Schema} (wellFormed : program.WellFormed)
    (declared : schema.declared = program.relations) {workspace : Workspace}
    (valid : workspace.StoresValid) {machine : Machine}
    (loaded : loadFacts program functions config schedule { workspace } = .ok machine) :
    machine.workspace.KeepsDeltas workspace ∧ machine.pool.queue = [] ∧
      machine.pool.failures = [] := by
  obtain ⟨pool, later, last, loadRun, outcome⟩ :=
    exists_loadRun wellFormed functions config schedule workspace
  have isLoad := loadRun.loads wellFormed (taskSize_pos config) declared
  have ended : (last.KeepsDeltas workspace ∧ ∀ task ∈ later.queue, task.Loads schema) ∧
      later.queue = [] := by
    refine Pool.drain_induction (motive := fun pool state =>
      state.KeepsDeltas workspace ∧ ∀ task ∈ pool.queue, task.Loads schema) ?_ loadRun.drained
        ⟨⟨valid, rfl, rfl⟩, isLoad⟩
    rintro task pool next state stored stepped ⟨kept, isLoad⟩
    have loads := isLoad _ stepped.taken
    have nothing := (loadContext functions config).spawned_run loads state
    have ran := (loadContext functions config).run_keepsDeltas loads kept.valid
    exact ⟨stepped.state_eq ▸ ran.trans kept, fun other member =>
      isLoad other (stepped.waited nothing member)⟩
  rw [outcome] at loaded
  split at loaded
  · cases loaded
  · next noFailure =>
      cases loaded
      exact ⟨ended.1.1, ended.2, List.head?_eq_none_iff.mp noFailure⟩

end Datalog
