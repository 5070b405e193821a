import Datalog.Proofs.Evaluation.Charge
import Datalog.Proofs.Evaluation.Warrant

/-!
# Tasks with warranted numbers

If functions keep a warrant, every tuple that a task stores or leaves to another task consists of
warranted numbers, and so does every tuple that it reads later.  The stores stay valid all along.
-/

namespace Datalog

variable {warrant : Warrant}

/-! ## Stores -/

/-- A valid store whose tuples consist of warranted numbers. -/
structure FactStore.Warranted (warrant : Warrant) (terms : TermStore) (store : FactStore) :
    Prop where
  valid : store.Valid
  numbers : ∀ symbol tuple, store.Holds symbol tuple → ∀ id ∈ tuple, warrant.number terms id

namespace FactStore.Warranted

variable {terms later : TermStore} {store source : FactStore} {symbol : RelationSymbol}
  {tuple : Tuple}

theorem mono (warranted : store.Warranted warrant terms) (grown : later.Extends terms) :
    store.Warranted warrant later :=
  ⟨warranted.valid, fun symbol tuple holds id member =>
    warrant.mono grown (warranted.numbers symbol tuple holds id member)⟩

theorem of_added (warranted : store.Warranted warrant terms) {grown : FactStore}
    {tuples : List Tuple} {count : Nat} (added : Added store grown symbol tuples count)
    (numbers : ∀ tuple ∈ tuples, ∀ id ∈ tuple, warrant.number terms id) :
    grown.Warranted warrant terms := by
  refine ⟨added.valid, fun other row holds => ?_⟩
  rcases (added.holds_iff other row).mp holds with before | ⟨-, here, -⟩
  · exact warranted.numbers other row before
  · exact numbers row here

theorem add (warranted : store.Warranted warrant terms) (length : tuple.length = symbol.arity)
    (numbers : ∀ id ∈ tuple, warrant.number terms id) :
    (store.add symbol tuple).2.Warranted warrant terms ∧
      (store.add symbol tuple).2.limits = store.limits := by
  have added := (warranted.valid.add length).1
  exact ⟨warranted.of_added added (by simpa using numbers), added.grows.limits_eq⟩

theorem clear (warranted : store.Warranted warrant terms) : store.clear.Warranted warrant terms :=
  ⟨warranted.valid.clear, fun _ _ holds => absurd holds warranted.valid.not_holds_clear⟩

theorem mergeInto (warranted : store.Warranted warrant terms)
    (sourceWarranted : source.Warranted warrant terms) (symbols : List RelationSymbol) :
    (FixpointContext.mergeInto source symbols store).2.Warranted warrant terms ∧
      (FixpointContext.mergeInto source symbols store).2.limits = store.limits := by
  induction symbols generalizing store with
  | nil => exact ⟨warranted, rfl⟩
  | cons symbol symbols ih =>
      have lengths : ∀ tuple ∈ source.tuplesOf symbol, tuple.length = symbol.arity :=
        fun tuple member => sourceWarranted.valid.length_of_mem_tuplesOf member
      have added := warranted.valid.addAll lengths
      have step := warranted.of_added added fun tuple member =>
        sourceWarranted.numbers symbol tuple (holds_of_mem_tuplesOf member)
      obtain ⟨rest, limitsEq⟩ := ih step
      exact ⟨rest, limitsEq.trans added.grows.limits_eq⟩

end FactStore.Warranted

/-! ## Workspaces -/

/-- Terms and stores are warranted, and compared with the start there are only more terms. -/
structure Workspace.Warranted (warrant : Warrant) (workspace start : Workspace) : Prop where
  terms : warrant.terms workspace.terms
  grown : workspace.terms.Extends start.terms
  limits_eq : workspace.db.limits = start.db.limits
  db : workspace.db.Warranted warrant workspace.terms
  delta : workspace.delta.Warranted warrant workspace.terms
  nextDelta : workspace.nextDelta.Warranted warrant workspace.terms

namespace Workspace.Warranted

variable {start workspace : Workspace} {symbol : RelationSymbol} {tuple : Tuple}

theorem withTerms (warranted : workspace.Warranted warrant start) {terms : TermStore}
    (held : warrant.terms terms) (grown : terms.Extends workspace.terms) :
    ({ workspace with terms } : Workspace).Warranted warrant start where
  terms := held
  grown := grown.trans warranted.grown
  limits_eq := warranted.limits_eq
  db := warranted.db.mono grown
  delta := warranted.delta.mono grown
  nextDelta := warranted.nextDelta.mono grown

theorem store (warranted : workspace.Warranted warrant start)
    (length : tuple.length = symbol.arity)
    (numbers : ∀ id ∈ tuple, warrant.number workspace.terms id) :
    (workspace.store symbol tuple).2.Warranted warrant start := by
  obtain ⟨db, limitsEq⟩ := warranted.db.add length numbers
  exact { warranted with db, limits_eq := limitsEq.trans warranted.limits_eq }

theorem collect (warranted : workspace.Warranted warrant start)
    (length : tuple.length = symbol.arity)
    (numbers : ∀ id ∈ tuple, warrant.number workspace.terms id) :
    (workspace.collect symbol tuple).2.Warranted warrant start := by
  unfold Workspace.collect
  split
  · exact warranted
  · exact { warranted with nextDelta := (warranted.nextDelta.add length numbers).1 }

theorem seed (warranted : workspace.Warranted warrant start) (context : FixpointContext) :
    (context.seed workspace).Warranted warrant start :=
  { warranted with
    delta := (warranted.delta.clear.mergeInto warranted.db context.symbols).1
    nextDelta := warranted.nextDelta.clear }

theorem merge (warranted : workspace.Warranted warrant start) (context : FixpointContext) :
    (context.merge workspace).2.Warranted warrant start := by
  obtain ⟨db, limitsEq⟩ := warranted.db.mergeInto warranted.nextDelta context.symbols
  exact { warranted with
    db
    limits_eq := limitsEq.trans warranted.limits_eq
    delta := warranted.nextDelta
    nextDelta := warranted.delta.clear }

theorem storeFor (warranted : workspace.Warranted warrant start) (context : TaskContext)
    (atom : PlanAtom) : (context.storeFor atom workspace).Warranted warrant workspace.terms := by
  unfold TaskContext.storeFor
  split
  · split
    · exact warranted.delta
    · exact warranted.db
  · exact warranted.db

end Workspace.Warranted

/-! ## Tasks -/

def PlanLiteral.terms : PlanLiteral → List PlanTerm
  | .unify source pattern => [source, pattern]
  | .disunify lhs rhs => [lhs, rhs]
  | .scan atom | .absent atom => atom.args

/-- The constants of a literal are warranted, and the term whose value an equation passes on is covered. -/
structure PlanLiteral.Warranted (warrant : Warrant) (store : TermStore) (literal : PlanLiteral) :
    Prop where
  constants : PlanTerm.Warranted warrant store literal.terms
  covered : ∀ source pattern, literal = .unify source pattern → warrant.covers source

/-- The literals of a plan are warranted, and its head is covered and has as many columns as its
relation. -/
structure RulePlan.Warranted (warrant : Warrant) (store : TermStore) (plan : RulePlan) : Prop where
  head_length : plan.head.length = plan.headSymbol.arity
  head : PlanTerm.Warranted warrant store plan.head
  head_covered : ∀ term ∈ plan.head, warrant.covers term
  body : ∀ literal ∈ plan.body, literal.Warranted warrant store

theorem RulePlan.Warranted.mono {store later : TermStore} {plan : RulePlan}
    (warranted : plan.Warranted warrant store) (grown : later.Extends store) :
    plan.Warranted warrant later :=
  { warranted with
    head := warranted.head.mono grown
    body := fun literal inBody =>
      { warranted.body literal inBody with
        constants := (warranted.body literal inBody).constants.mono grown } }

def Tuple.Warranted (warrant : Warrant) (terms : TermStore) (tuple : Tuple) : Prop :=
  ∀ id ∈ tuple, warrant.number terms id

/-- What a task carries with it is warranted: the plan at the start, and numbers by now. -/
def Task.Warranted (warrant : Warrant) (start terms : TermStore) : Task → Prop
  | .load symbol facts => warrant.coversFacts ∧ ∀ args ∈ facts, args.length = symbol.arity
  | .evaluate plan => plan.Warranted warrant start
  | .scan plan _ substitution view =>
      plan.Warranted warrant start ∧ substitution.Warranted warrant terms ∧
        view.Copies (Tuple.Warranted warrant terms)
  | .trigger plan tuple => plan.Warranted warrant start ∧ Tuple.Warranted warrant terms tuple

theorem View.Copies.imp {condition weaker : Tuple → Prop} {view : View}
    (copies : view.Copies condition) (implied : ∀ tuple, condition tuple → weaker tuple) :
    view.Copies weaker := by
  cases view with
  | array tuples => exact fun tuple member => implied tuple (copies tuple member)
  | range => trivial

theorem Tuple.Warranted.mono {terms later : TermStore} {tuple : Tuple}
    (warranted : Tuple.Warranted warrant terms tuple) (grown : later.Extends terms) :
    Tuple.Warranted warrant later tuple :=
  fun id member => warrant.mono grown (warranted id member)

theorem Task.Warranted.mono {start terms later : TermStore} {task : Task}
    (warranted : task.Warranted warrant start terms) (grown : later.Extends terms) :
    task.Warranted warrant start later := by
  cases task with
  | load | evaluate => exact warranted
  | scan plan position substitution view =>
      obtain ⟨plan, slots, copies⟩ := warranted
      exact ⟨plan, slots.mono grown, copies.imp fun _ numbers => numbers.mono grown⟩
  | trigger plan tuple => exact ⟨warranted.1, warranted.2.mono grown⟩

/-- A running task has warranted numbers at hand, and leaves such to others. -/
structure TaskState.Warranted (warrant : Warrant) (start : Workspace) (state : TaskState) :
    Prop where
  workspace : state.workspace.Warranted warrant start
  slots : state.substitution.Warranted warrant state.workspace.terms
  spawned : ∀ task ∈ state.spawned, task.Warranted warrant start.terms state.workspace.terms

variable {start : Workspace} {state : TaskState} {context : TaskContext} {plan : RulePlan}

namespace TaskState.Warranted

theorem bindings (warranted : state.Warranted warrant start) :
    state.bindings.Warranted warrant state.workspace.terms :=
  ⟨warranted.workspace.terms, .refl _, warranted.slots⟩

theorem withBindings (warranted : state.Warranted warrant start) {bindings : Bindings}
    (bound : bindings.Warranted warrant state.workspace.terms) :
    (state.withBindings bindings).Warranted warrant start :=
  ⟨warranted.workspace.withTerms bound.terms bound.grown, bound.slots, fun task member =>
    (warranted.spawned task member).mono bound.grown⟩

theorem withSubstitution (warranted : state.Warranted warrant start) {substitution : Substitution}
    (slots : substitution.Warranted warrant state.workspace.terms) :
    ({ state with substitution } : TaskState).Warranted warrant start :=
  { warranted with slots }

end TaskState.Warranted

namespace TaskM

theorem vouches_ofBindM {α : Type} {result : α → Bindings → Prop} {computation : BindM α}
    (warranted : state.Warranted warrant start)
    (vouches : Vouches (Bindings.Warranted warrant state.workspace.terms) result state.bindings
      computation) :
    Vouches (TaskState.Warranted warrant start) (fun value later => result value later.bindings)
      state (ofBindM computation) := by
  refine (leaves_ofBindM vouches).mono ?_ ?_
  · rintro value _ ⟨bindings, rfl, bound, grown, isResult⟩
    exact ⟨warranted.withBindings bound, grown, isResult⟩
  · rintro error _ ⟨bindings, rfl, bound⟩
    exact warranted.withBindings bound

theorem vouches_check {check : BindM Bool} (warranted : state.Warranted warrant start)
    (vouches : Vouches (Bindings.Warranted warrant state.workspace.terms) (fun _ _ => True)
      state.bindings check) :
    Vouches (TaskState.Warranted warrant start) (fun _ _ => True) state (ofBindM check) :=
  vouches_ofBindM warranted vouches

theorem vouches_spawn (warranted : state.Warranted warrant start) (task : Task)
    (taskWarranted : task.Warranted warrant start.terms state.workspace.terms) :
    Vouches (TaskState.Warranted warrant start) (fun _ _ => True) state (spawn task) := by
  refine .modifyGet { warranted with spawned := fun other member => ?_ } rfl trivial
  rcases List.mem_append.mp member with before | here
  · exact warranted.spawned other before
  · exact List.mem_singleton.mp here ▸ taskWarranted

theorem vouches_setSubstitution (warranted : state.Warranted warrant start)
    {substitution : Substitution}
    (slots : substitution.Warranted warrant state.workspace.terms) :
    Vouches (TaskState.Warranted warrant start)
      (fun _ later => later.substitution = substitution) state (setSubstitution substitution) :=
  .modifyGet (warranted.withSubstitution slots) rfl rfl

theorem vouches_undoing {step : TaskM Unit}
    (vouches : Vouches (TaskState.Warranted warrant start) (fun _ _ => True) state step) :
    Vouches (TaskState.Warranted warrant start) (fun _ _ => True) state (undoing step) := by
  apply Vouches.get_bind
  apply vouches.bind
  intro _ later warranted _ _
  exact .modifyGet (warranted.withSubstitution (warranted.slots.rollback _)) rfl trivial

theorem vouches_updateWorkspace {α : Type} {update : Workspace → α × Workspace}
    (warranted : state.Warranted warrant start)
    (updated : (update state.workspace).2.Warranted warrant start)
    (termsEq : (update state.workspace).2.terms = state.workspace.terms) :
    Vouches (TaskState.Warranted warrant start) (fun _ _ => True) state
      (updateWorkspace update) := by
  refine .modifyGet ⟨updated, ?_, fun task member => ?_⟩ termsEq trivial
  · exact termsEq ▸ warranted.slots
  · exact termsEq ▸ warranted.spawned task member

end TaskM

namespace TaskContext

/-! ## Lookups and filters -/

theorem lookup_vouches (honours : context.functions.Honours warrant)
    (warranted : state.Warranted warrant start) {atom : PlanAtom}
    (constants : PlanTerm.Warranted warrant start.terms atom.args) :
    Vouches (TaskState.Warranted warrant start)
      (fun view later => view.Copies (Tuple.Warranted warrant later.workspace.terms)) state
      (context.lookup atom) := by
  have boundArgs : atom.boundArgs ⊆ atom.args := by
    intro arg member
    obtain ⟨⟨arg', binding⟩, inZip, kept⟩ := List.mem_filterMap.mp member
    dsimp only at kept
    split at kept
    · cases kept
      exact (List.of_mem_zip inZip).1
    · cases kept
  have evaluated := PlanTerm.evalList_vouches honours warranted.bindings
    ((constants.subset boundArgs).mono warranted.workspace.grown)
  apply (TaskM.vouches_ofBindM warranted evaluated).bind
  intro key later warranted _ _
  apply Vouches.get_bind
  have store := warranted.workspace.storeFor context atom
  exact .pure warranted (store.valid.copies_get (store.numbers atom.symbol) atom.index key)

theorem filter_vouches (honours : context.functions.Honours warrant)
    (warranted : state.Warranted warrant start) {literal : PlanLiteral}
    (isWarranted : literal.Warranted warrant start.terms) :
    Vouches (TaskState.Warranted warrant start) (fun _ _ => True) state
      (context.filter literal) := by
  have atHand := isWarranted.constants.mono warranted.workspace.grown
  cases literal with
  | unify source pattern =>
      have covered := isWarranted.covered source pattern rfl
      obtain ⟨sourceConstants, rest⟩ := PlanTerm.warranted_cons.mp atHand
      obtain ⟨patternConstants, -⟩ := PlanTerm.warranted_cons.mp rest
      apply TaskM.vouches_check warranted
      apply (honours.eval source warranted.bindings sourceConstants).bind
      intro value later bound _ number
      exact PlanTerm.matchValue_vouches honours pattern bound patternConstants (number covered)
  | disunify lhs rhs =>
      obtain ⟨leftConstants, rest⟩ := PlanTerm.warranted_cons.mp atHand
      obtain ⟨rightConstants, -⟩ := PlanTerm.warranted_cons.mp rest
      apply TaskM.vouches_check warranted
      apply (honours.eval lhs warranted.bindings leftConstants).bind
      intro left middle bound _ _
      apply (honours.eval rhs bound rightConstants).bind
      exact fun right later bound _ _ => .pure bound trivial
  | scan atom => exact .throw warranted
  | absent atom =>
      apply (lookup_vouches honours warranted isWarranted.constants).bind
      exact fun view later warranted _ _ => .pure warranted trivial

theorem filterAll_vouches (honours : context.functions.Honours warrant)
    {literals : List PlanLiteral} (warranted : state.Warranted warrant start)
    (areWarranted : ∀ literal ∈ literals, literal.Warranted warrant start.terms) :
    Vouches (TaskState.Warranted warrant start) (fun _ _ => True) state
      (context.filterAll literals) := by
  induction literals generalizing state with
  | nil => exact .pure warranted trivial
  | cons literal literals ih =>
      obtain ⟨here, there⟩ := List.forall_mem_cons.mp areWarranted
      apply (filter_vouches honours warranted here).bind
      intro success later warranted _ _
      split
      · exact ih warranted there
      · exact .pure warranted trivial

theorem loadFact_vouches (honours : context.functions.Honours warrant) (covered : warrant.coversFacts)
    {store : TermStore} (held : warrant.terms store) (fact : Fact) :
    Vouches warrant.terms (fun tuple later => Tuple.Warranted warrant later tuple) store
      (context.loadFact fact) := by
  have vouches := honours.normalize covered fact.args held
  unfold Vouches Leaves at vouches ⊢
  unfold loadFact
  cases outcome : Term.normalizeList context.functions fact.args store with
  | ok tuple later =>
      rw [outcome] at vouches
      exact vouches
  | error error later =>
      rw [outcome] at vouches
      exact vouches

/-! ## Reports -/

theorem triggerRules_vouches {symbol : RelationSymbol} {tuple : Tuple} {rules : List RulePlan}
    (plans : ∀ plan ∈ rules, plan.Warranted warrant start.terms)
    (warranted : state.Warranted warrant start)
    (numbers : Tuple.Warranted warrant state.workspace.terms tuple) :
    Vouches (TaskState.Warranted warrant start) (fun _ _ => True) state
      (triggerRules symbol tuple rules) := by
  induction rules generalizing state with
  | nil => exact .pure warranted trivial
  | cons rule rules ih =>
      obtain ⟨here, there⟩ := List.forall_mem_cons.mp plans
      unfold triggerRules
      split
      · apply (TaskM.vouches_spawn warranted (.trigger rule tuple) ⟨here, numbers⟩).bind
        exact fun _ later warranted grown _ => ih there warranted (numbers.mono grown)
      · exact ih there warranted numbers

variable (triggered : ∀ plan ∈ context.strategy.triggered, plan.Warranted warrant start.terms)

include triggered

theorem record_vouches {symbol : RelationSymbol} {tuple : Tuple}
    (warranted : state.Warranted warrant start) (length : tuple.length = symbol.arity)
    (numbers : Tuple.Warranted warrant state.workspace.terms tuple) :
    Vouches (TaskState.Warranted warrant start) (fun _ _ => True) state
      (context.record symbol tuple) := by
  have counting : ∀ later : TaskState, later.Warranted warrant start →
      Vouches (TaskState.Warranted warrant start) (fun _ _ => True) later
        (TaskM.updateWorkspace fun workspace => ((), workspace.countDerived)) :=
    fun later warranted => TaskM.vouches_updateWorkspace warranted { warranted.workspace with } rfl
  unfold record
  cases strategyEq : context.strategy with
  | rounds =>
      apply (TaskM.vouches_updateWorkspace warranted (warranted.workspace.collect length numbers)
        (Workspace.terms_collect _ _ _)).bind
      intro isNew later warranted _ _
      split
      · exact counting later warranted
      · exact .pure warranted trivial
  | eager rules =>
      rw [strategyEq] at triggered
      apply (TaskM.vouches_updateWorkspace warranted (warranted.workspace.store length numbers)
        rfl).bind
      intro isNew later warranted grown _
      split
      · apply (counting later warranted).bind
        intro _ last warranted grown' _
        exact triggerRules_vouches triggered warranted ((numbers.mono grown).mono grown')
      · exact .pure warranted trivial

theorem report_vouches (honours : context.functions.Honours warrant)
    (planWarranted : plan.Warranted warrant start.terms)
    (warranted : state.Warranted warrant start) :
    Vouches (TaskState.Warranted warrant start) (fun _ _ => True) state (context.report plan) := by
  have constants := planWarranted.head.mono warranted.workspace.grown
  have evaluated := (PlanTerm.evalList_vouches honours warranted.bindings constants).and_leaves (PlanTerm.length_evalList context.functions plan.head _)
  apply (TaskM.vouches_ofBindM warranted evaluated).bind
  rintro tuple later warranted _ ⟨numbers, length⟩
  exact record_vouches triggered warranted (length.trans planWarranted.head_length)
    (numbers planWarranted.head_covered)

/-! ## Scans -/

omit triggered in
theorem scanTuples_vouches (honours : context.functions.Honours warrant) {atom : PlanAtom}
    {continuation : TaskM Unit} {tuples : List Tuple}
    (constants : PlanTerm.Warranted warrant start.terms atom.args)
    (goesOn : ∀ later : TaskState, later.Warranted warrant start →
      Vouches (TaskState.Warranted warrant start) (fun _ _ => True) later continuation)
    (warranted : state.Warranted warrant start)
    (numbers : ∀ tuple ∈ tuples, Tuple.Warranted warrant state.workspace.terms tuple) :
    Vouches (TaskState.Warranted warrant start) (fun _ _ => True) state
      (context.scanTuples atom continuation tuples) := by
  induction tuples generalizing state with
  | nil => exact .pure warranted trivial
  | cons tuple tuples ih =>
      obtain ⟨here, there⟩ := List.forall_mem_cons.mp numbers
      have matched := TaskM.vouches_check warranted (matchColumns_vouches honours false
        atom.pattern warranted.bindings (constants.mono warranted.workspace.grown) here)
      unfold scanTuples
      apply (TaskM.vouches_undoing (matched.bind ?_)).bind
      · intro _ later warranted grown _
        exact ih warranted fun other member => (there other member).mono grown
      · intro isMatch later warranted _ _
        split
        · exact goesOn later warranted
        · exact .pure warranted trivial

omit triggered in
theorem scanRange_vouches (honours : context.functions.Honours warrant) {atom : PlanAtom}
    {continuation : TaskM Unit} (constants : PlanTerm.Warranted warrant start.terms atom.args)
    (goesOn : ∀ later : TaskState, later.Warranted warrant start →
      Vouches (TaskState.Warranted warrant start) (fun _ _ => True) later continuation)
    {chunks : Nat} {keys : KeyRange} (warranted : state.Warranted warrant start) :
    Vouches (TaskState.Warranted warrant start) (fun _ _ => True) state
      (context.scanRange atom continuation chunks keys) := by
  induction chunks generalizing state keys with
  | zero => exact .pure warranted trivial
  | succ chunks ih =>
      -- What is read from an index now is in a warranted store now.
      have store := warranted.workspace.storeFor context atom
      have numbers : ∀ tuple ∈ ((context.indexFor atom state.workspace).readChunk keys).1,
          Tuple.Warranted warrant state.workspace.terms tuple := by
        intro tuple member
        obtain ⟨entry, inChunk, rfl⟩ := List.mem_map.mp member
        have inIndex := (Index.mem_entriesIn.mp (List.mem_of_mem_take inChunk)).1
        exact store.numbers atom.symbol _ (store.valid.holds_of_read _ _ entry inIndex)
      unfold scanRange
      apply Vouches.get_bind
      apply (scanTuples_vouches honours constants goesOn warranted numbers).bind
      intro _ later warranted _ _
      split
      · exact .pure warranted trivial
      · exact ih warranted

omit triggered in
theorem scanView_vouches (honours : context.functions.Honours warrant) {atom : PlanAtom}
    {continuation : TaskM Unit} (constants : PlanTerm.Warranted warrant start.terms atom.args)
    (goesOn : ∀ later : TaskState, later.Warranted warrant start →
      Vouches (TaskState.Warranted warrant start) (fun _ _ => True) later continuation)
    {view : View} (warranted : state.Warranted warrant start)
    (copies : view.Copies (Tuple.Warranted warrant state.workspace.terms)) :
    Vouches (TaskState.Warranted warrant start) (fun _ _ => True) state
      (context.scanView atom continuation view) := by
  cases view with
  | array tuples => exact scanTuples_vouches honours constants goesOn warranted copies
  | range keys count => exact scanRange_vouches honours constants goesOn warranted

/-! ## Bodies -/

variable (honours : context.functions.Honours warrant)
  (planWarranted : plan.Warranted warrant start.terms)

include honours planWarranted

theorem evalBody_vouches {body : List PlanLiteral} (inBody : body ⊆ plan.body)
    (warranted : state.Warranted warrant start) :
    Vouches (TaskState.Warranted warrant start) (fun _ _ => True) state
      (context.evalBody plan body) := by
  induction body generalizing state with
  | nil => exact report_vouches triggered honours planWarranted warranted
  | cons literal body ih =>
      obtain ⟨here, there⟩ := List.cons_subset.mp inBody
      have isWarranted := planWarranted.body literal here
      cases literal with
      | scan atom =>
          apply (lookup_vouches honours warranted isWarranted.constants).bind
          intro view later warranted _ copies
          exact scanView_vouches honours isWarranted.constants (fun _ => ih there) warranted copies
      | unify | disunify | absent =>
          apply TaskM.vouches_undoing
          apply (filter_vouches honours warranted isWarranted).bind
          intro success later warranted _ _
          split
          · exact ih there warranted
          · exact .pure warranted trivial

omit triggered honours in
/-- The atom at the place of a scan is one of the body. -/
theorem scannedAtom_vouches (warranted : state.Warranted warrant start) (position : Nat) :
    Vouches (TaskState.Warranted warrant start)
      (fun atom _ => PlanTerm.Warranted warrant start.terms atom.args) state
      (scannedAtom plan position) := by
  unfold scannedAtom
  split
  · next atom atPosition =>
      exact .pure warranted (planWarranted.body _ (List.mem_of_getElem? atPosition)).constants
  · exact .throw warranted

theorem evaluate_vouches (warranted : state.Warranted warrant start) :
    Vouches (TaskState.Warranted warrant start) (fun _ _ => True) state
      (context.evaluate plan) := by
  unfold evaluate
  apply (TaskM.vouches_setSubstitution warranted (Substitution.warranted_unbound plan.slots)).bind
  intro _ middle warranted _ _
  split
  · exact evalBody_vouches triggered honours planWarranted (List.Subset.refl _) warranted
  · next position _ =>
      have prefixWarranted := fun literal (member : literal ∈ plan.body.take position) =>
        planWarranted.body literal (List.mem_of_mem_take member)
      apply (filterAll_vouches honours warranted prefixWarranted).bind
      intro success middle warranted _ _
      split
      · apply (scannedAtom_vouches planWarranted warranted position).bind
        intro atom middle warranted _ constants
        apply (lookup_vouches honours warranted constants).bind
        intro view later warranted _ copies
        apply Vouches.get_bind
        exact TaskM.vouches_spawn warranted (.scan plan position later.substitution view)
          ⟨planWarranted, warranted.slots, copies⟩
      · exact .pure warranted trivial

omit triggered honours planWarranted in
theorem partsOf_vouches {atom : PlanAtom} {view : View} (warranted : state.Warranted warrant start)
    (copies : view.Copies (Tuple.Warranted warrant state.workspace.terms)) :
    Vouches (TaskState.Warranted warrant start)
      (fun parts later => ∀ left right, parts = some (left, right) →
        left.Copies (Tuple.Warranted warrant later.workspace.terms) ∧
          right.Copies (Tuple.Warranted warrant later.workspace.terms)) state
      (context.partsOf atom view) := by
  unfold partsOf
  split
  · refine .modifyGet ⟨{ warranted.workspace with }, warranted.slots, warranted.spawned⟩ rfl ?_
    intro left right splitEq
    have store := warranted.workspace.storeFor context atom
    exact View.copies_split (fun entry inIndex => store.numbers atom.symbol _
      (store.valid.holds_of_read _ _ entry inIndex)) copies splitEq
  · exact .pure warranted (by simp)

theorem scan_vouches {position : Nat} {substitution : Substitution} {view : View}
    (warranted : state.Warranted warrant start)
    (slots : substitution.Warranted warrant state.workspace.terms)
    (copies : view.Copies (Tuple.Warranted warrant state.workspace.terms)) :
    Vouches (TaskState.Warranted warrant start) (fun _ _ => True) state
      (context.scan plan position substitution view) := by
  unfold scan
  apply (scannedAtom_vouches planWarranted warranted position).bind
  intro atom middle warranted grown constants
  have copies := copies.imp fun _ numbers => Tuple.Warranted.mono numbers grown
  apply (partsOf_vouches warranted copies).bind
  intro parts later warranted grown' partCopies
  have slots := (slots.mono grown).mono grown'
  have copies := copies.imp fun _ numbers => Tuple.Warranted.mono numbers grown'
  cases parts with
  | some both =>
      obtain ⟨left, right⟩ := both
      obtain ⟨leftCopies, rightCopies⟩ := partCopies left right rfl
      apply (TaskM.vouches_spawn warranted (.scan plan position substitution left)
        ⟨planWarranted, slots, leftCopies⟩).bind
      intro _ last warranted grown _
      have rightCopies := rightCopies.imp fun _ numbers => Tuple.Warranted.mono numbers grown
      exact TaskM.vouches_spawn warranted (.scan plan position substitution right)
        ⟨planWarranted, slots.mono grown, rightCopies⟩
  | none =>
      apply (TaskM.vouches_setSubstitution warranted slots).bind
      intro _ last warranted grown _
      have copies := copies.imp fun _ numbers => Tuple.Warranted.mono numbers grown
      have rest := List.drop_subset (position + 1) plan.body
      exact scanView_vouches honours constants
        (fun _ => evalBody_vouches triggered honours planWarranted rest) warranted copies

theorem trigger_vouches {tuple : Tuple} (warranted : state.Warranted warrant start)
    (numbers : Tuple.Warranted warrant state.workspace.terms tuple) :
    Vouches (TaskState.Warranted warrant start) (fun _ _ => True) state
      (context.trigger plan tuple) := by
  unfold trigger
  split
  · exact .pure warranted trivial
  · next position _ =>
      apply (TaskM.vouches_setSubstitution warranted
        (Substitution.warranted_unbound plan.slots)).bind
      intro _ middle warranted grown _
      have numbers := numbers.mono grown
      have prefixWarranted := fun literal (member : literal ∈ plan.body.take position) =>
        planWarranted.body literal (List.mem_of_mem_take member)
      apply (filterAll_vouches honours warranted prefixWarranted).bind
      intro success middle warranted grown _
      have numbers := numbers.mono grown
      split
      · apply (scannedAtom_vouches planWarranted warranted position).bind
        intro atom middle warranted grown constants
        have numbers := numbers.mono grown
        have matched := TaskM.vouches_check warranted (matchColumns_vouches honours true
          atom.pattern warranted.bindings
          (constants.mono warranted.workspace.grown) numbers)
        apply matched.bind
        intro isMatch later warranted _ _
        split
        · exact evalBody_vouches triggered honours planWarranted (List.drop_subset _ _) warranted
        · exact .pure warranted trivial
      · exact .pure warranted trivial

omit triggered planWarranted in
/-- The facts that a task loads have as many columns as their relation. -/
theorem load_vouches (covered : warrant.coversFacts) {symbol : RelationSymbol}
    {facts : List (List Term)} (lengths : ∀ args ∈ facts, args.length = symbol.arity)
    (warranted : state.Warranted warrant start) :
    Vouches (TaskState.Warranted warrant start) (fun _ _ => True) state
      (context.load symbol facts) := by
  induction facts generalizing state with
  | nil => exact .pure warranted trivial
  | cons args facts ih =>
      obtain ⟨here, there⟩ := List.forall_mem_cons.mp lengths
      have evaluated := (loadFact_vouches honours covered warranted.workspace.terms
        { symbol, args }).and_leaves (context.length_loadFact { symbol, args } _)
      apply (TaskM.vouches_ofBindM warranted (BindM.vouches_ofTermM warranted.bindings
        (context.interns_loadFact _) evaluated)).bind
      rintro tuple middle warranted _ ⟨numbers, length⟩
      apply (TaskM.vouches_updateWorkspace warranted
        (warranted.workspace.store (length.trans here) numbers) rfl).bind
      exact fun _ later warranted _ _ => ih there warranted

omit planWarranted in
/-- A warranted task keeps the stores warranted, and so are the tasks that it leaves to others. -/
theorem run_warranted {task : Task} {workspace : Workspace}
    (warranted : workspace.Warranted warrant start)
    (taskWarranted : task.Warranted warrant start.terms workspace.terms) :
    (context.run task workspace).state.Warranted warrant start ∧
      ∀ other ∈ (context.run task workspace).spawned,
        other.Warranted warrant start.terms (context.run task workspace).state.terms := by
  let first : TaskState := { workspace, substitution := .unbound 0 }
  have firstWarranted : first.Warranted warrant start :=
    ⟨warranted, Substitution.warranted_unbound 0, by simp [first]⟩
  have vouches : Vouches (TaskState.Warranted warrant start) (fun _ _ => True) first
      (context.steps task) := by
    cases task with
    | load symbol facts => exact load_vouches honours taskWarranted.1 taskWarranted.2 firstWarranted
    | evaluate plan => exact evaluate_vouches triggered honours taskWarranted firstWarranted
    | scan plan position substitution view =>
        obtain ⟨planWarranted, slots, copies⟩ := taskWarranted
        exact scan_vouches triggered honours planWarranted firstWarranted slots copies
    | trigger plan tuple =>
        obtain ⟨planWarranted, numbers⟩ := taskWarranted
        exact trigger_vouches triggered honours planWarranted firstWarranted numbers
  obtain ⟨later, stateEq, spawnedEq, kept⟩ :=
    exists_ran_of_kept (Leaves.mono vouches (fun _ _ kept => kept.1) fun _ _ kept => kept)
  rw [← stateEq, ← spawnedEq]
  exact ⟨kept.workspace, kept.spawned⟩

end TaskContext

end Datalog
