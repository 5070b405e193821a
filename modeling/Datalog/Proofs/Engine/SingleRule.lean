import Datalog.Proofs.Evaluation.Delivery
import Datalog.Proofs.Evaluation.Round
import Datalog.Proofs.Evaluation.Unlimited
import Datalog.Proofs.Planning.Stratum
import Datalog.Proofs.Store.History

/-!
# One rule on its own

A rule is run against stores that do not change, and what it derives is collected.  Whatever the order
of its literals, the indices that are looked up, the splitting of scans and the order of the tasks are,
the tuples that are collected are the heads of the instances that hold and that are not known.  For a
delta rule it is the same whether the rule reads the whole relation of its delta literal or is triggered
by each tuple of it in turn.
-/

namespace Datalog

/-! ## Stores that a plan can be run against -/

/-- The stores have the indices that a plan refers to, their tuples denote values, and nothing has been
collected for the relation that is derived. -/
structure Workspace.Hosts (referents : Referents) (symbol : RelationSymbol) (workspace : Workspace) :
    Prop where
  keeps : (workspace.referents .rounds).Keeps referents
  distinct : workspace.terms.Distinct
  valid : ∀ delta, (Strategy.rounds.source delta workspace).Valid
  denoted : ∀ delta, (Strategy.rounds.source delta workspace).Within workspace.terms Set.univ
  nextDelta_valid : workspace.nextDelta.Valid
  collected : ∀ other tuple, ¬ workspace.nextDelta.Holds other tuple
  registers : workspace.nextDelta.Registers symbol

/-- The stores were built from what rules asked for while they were planned, and filled since. -/
structure Workspace.FilledFrom (separateDeltas : Bool) (resources : Planner.Resources)
    (workspace : Workspace) : Prop where
  terms : workspace.terms.Extends resources.terms
  distinct : workspace.terms.Distinct
  db : workspace.db.FilledFrom resources.main
  delta : workspace.delta.FilledFrom (if separateDeltas then resources.delta else resources.main)
  nextDelta : ∃ config, workspace.nextDelta = resources.delta.build config
  db_denotes : workspace.db.Within workspace.terms Set.univ
  delta_denotes : workspace.delta.Within workspace.terms Set.univ

theorem Workspace.FilledFrom.hosts {separateDeltas : Bool} {resources : Planner.Resources}
    {workspace : Workspace} (filled : workspace.FilledFrom separateDeltas resources)
    (valid : resources.Valid) {symbol : RelationSymbol}
    (registered : (resources.delta.patterns? symbol).isSome = true) :
    workspace.Hosts (resources.referents separateDeltas) symbol := by
  obtain ⟨config, nextDeltaEq⟩ := filled.nextDelta
  have deltaValid : (if separateDeltas then resources.delta else resources.main).Valid := by
    split
    · exact valid.delta
    · exact valid.main
  refine ⟨⟨filled.terms, fun delta symbol number pattern requests => ?_⟩, filled.distinct, ?_, ?_,
    ?_, ?_, ?_⟩
  · cases delta
    · exact filled.db.provides valid.main requests
    · refine filled.delta.provides deltaValid ?_
      cases separateDeltas <;> exact requests
  · rintro (_ | _)
    · exact filled.db.valid valid.main
    · exact filled.delta.valid deltaValid
  · rintro (_ | _)
    · exact filled.db_denotes
    · exact filled.delta_denotes
  · rw [nextDeltaEq]
    exact StorePlan.valid_build valid.delta
  · intro other tuple
    rw [nextDeltaEq]
    exact StorePlan.not_holds_build valid.delta
  · rw [nextDeltaEq]
    exact StorePlan.registers_build.mpr registered

theorem Strategy.bounded_rounds {workspace : Workspace} (db : workspace.db.limits.Bounded)
    (delta : workspace.delta.limits.Bounded) (isDelta : Bool) :
    (Strategy.rounds.source isDelta workspace).limits.Bounded := by
  cases isDelta
  · exact db
  · exact delta

def Layout.single (names : List String) (symbol : RelationSymbol) : Layout where
  names _ := names
  symbols := [symbol]
  symbols_nodup := List.nodup_singleton symbol

namespace Workspace.Hosts

variable {meaning : Interpretation} {functions : Registry} {separateDeltas : Bool}
  {resources : Planner.Resources} {workspace : Workspace} {names : List String} {plan : RulePlan}
  {rule : DeltaRule} {context : TaskContext}

/-- What a single rule derives from the stores. -/
abbrev frame (meaning : Interpretation) (workspace : Workspace) (names : List String)
    (plan : RulePlan) : Frame :=
  roundFrame (.single names plan.headSymbol) meaning [plan]
    (workspace.db.model workspace.terms) (workspace.delta.model workspace.terms)

theorem fits (hosts : workspace.Hosts (resources.referents separateDeltas) plan.headSymbol)
    (bounded : ∀ delta, (Strategy.rounds.source delta workspace).limits.Bounded) :
    workspace.Fits (frame meaning workspace names plan) .rounds := by
  have showing : ∀ delta, (Strategy.rounds.source delta workspace).Shows workspace.terms
      (reading (workspace.db.model workspace.terms) (workspace.delta.model workspace.terms)
        delta) := by
    rintro (_ | _)
    · exact (hosts.denoted false).shows_model
    · exact (hosts.denoted true).shows_model
  exact
    { distinct := hosts.distinct
      source_valid := hosts.valid
      source_bounded := bounded
      certain := fun delta => (showing delta).includes
      possible := fun delta => (showing delta).within
      nextDelta_valid := hosts.nextDelta_valid
      nextDelta_within := fun symbol tuple holds => absurd holds (hosts.collected symbol tuple)
      nextDelta_symbols := fun symbol tuple holds => absurd holds (hosts.collected symbol tuple)
      registers := fun symbol member => List.mem_singleton.mp member ▸ hosts.registers
      absorbs := fun _ known => known
      spares := fun symbol tuple holds => absurd holds (hosts.collected symbol tuple) }

section Sound

variable (hosts : workspace.Hosts (resources.referents separateDeltas) plan.headSymbol)
  (made : plan.Made functions separateDeltas resources names)
  (ordered : plan.source.OrderedFrom rule) (marksPositive : DeltaRule.MarksPositive rule.body)
  (headLength : rule.head.args.length = rule.head.symbol.arity)

include hosts made ordered marksPositive headLength

theorem sound :
    plan.Sound (frame meaning workspace names plan) .rounds workspace := by
  refine ⟨made.fits ordered hosts.keeps rfl ?_ ?_ (List.mem_singleton_self _), ?_⟩
  · intro literal inBody atom isAtom negated
    refine ⟨?_, List.not_mem_nil⟩
    by_contra marked
    have inRule : { literal := .predicate atom, delta := true } ∈ rule.body := by
      rw [← ordered.permuted.mem_iff, ← isAtom, ← (by simpa using marked : literal.delta = true)]
      exact inBody
    simp [marksPositive atom inRule] at negated
  · rw [RulePlan.headSymbol, ordered.head_eq]
    exact headLength
  · exact fun fact derived => ⟨plan, List.mem_singleton_self _, derived⟩

omit hosts made marksPositive headLength in
theorem goal_eq :
    (frame meaning workspace names plan).goal =
      rule.consequences meaning
        (reading (workspace.db.model workspace.terms) (workspace.delta.model workspace.terms))
          (workspace.db.model workspace.terms) := by
  rw [← ordered.consequences_eq]
  ext fact
  simp [roundFrame, planConsequences]

/-- Sound tasks that promise what the rule derives report just this, and collect what is new of it. -/
theorem reports_drained (computes : functions.Computes meaning)
    (bounded : ∀ delta, (Strategy.rounds.source delta workspace).limits.Bounded)
    {tasks : List Task}
    (tasksSound : plan.Sound (frame meaning workspace names plan) .rounds workspace →
      ∀ task ∈ tasks, task.Sound (frame meaning workspace names plan) .rounds workspace)
    (promised : ∀ fact ∈ plan.source.consequences meaning
        (reading (workspace.db.model workspace.terms) (workspace.delta.model workspace.terms))
          (workspace.db.model workspace.terms),
      ∃ task ∈ tasks, task.Promises (frame meaning workspace names plan) .rounds workspace fact)
    {taskSize : Nat} {order : Nat → Nat} {fuel : Nat} {pool : Pool Task TaskError} {last : Workspace}
    (drained : (({} : Pool Task TaskError).submitAll tasks).drain
      (TaskContext.run { functions, strategy := .rounds, taskSize }) order fuel workspace =
        some (pool, last))
    (noFailure : pool.failures = []) (room : last.terms.HasRoom) :
    TaskContext.ReportsExactly { functions, strategy := .rounds, taskSize } order
        (({} : Pool Task TaskError).submitAll tasks) workspace last.terms
        (rule.consequences meaning
          (reading (workspace.db.model workspace.terms) (workspace.delta.model workspace.terms))
            (workspace.db.model workspace.terms)) ∧
      last.nextDelta.Shows last.terms
        (rule.consequences meaning
          (reading (workspace.db.model workspace.terms) (workspace.delta.model workspace.terms))
            (workspace.db.model workspace.terms) \ workspace.db.model workspace.terms) := by
  have planSound : plan.Sound (frame meaning workspace names plan) .rounds workspace :=
    hosts.sound made ordered marksPositive headLength
  have fits : workspace.Fits (frame meaning workspace names plan) .rounds := hosts.fits bounded
  have untriggered : ∀ other ∈ Strategy.rounds.triggered,
      other.Sound (frame meaning workspace names plan) .rounds workspace := fun _ member => by
    simp [Strategy.triggered] at member
  rw [ordered.consequences_eq] at promised
  rw [← goal_eq ordered] at promised ⊢
  refine ⟨TaskContext.reportsExactly_of_drain computes fits untriggered (tasksSound planSound)
    promised drained noFailure room, ?_⟩
  have idle : ({} : Pool Task TaskError).queue = [] := rfl
  have underWay := underWay_start idle fits untriggered (tasksSound planSound) promised
  obtain ⟨lastFits, -, reported⟩ := underWay.drain computes drained room
  exact Workspace.shows_collected lastFits (reported noFailure)

end Sound

/-- Without a limit on views nothing is collected by tasks that look tuples up first. -/
theorem shows_empty {symbol : RelationSymbol} {referents : Referents}
    (hosts : workspace.Hosts referents symbol) (unlimited : workspace.Unlimited) {tasks : List Task}
    (barren : ∀ task ∈ tasks, task.Barren) {taskSize fuel : Nat} {order : Nat → Nat}
    {pool : Pool Task TaskError} {last : Workspace}
    (drained : (({} : Pool Task TaskError).submitAll tasks).drain
      (TaskContext.run { functions, strategy := .rounds, taskSize }) order fuel workspace =
        some (pool, last)) :
    last.nextDelta.Shows last.terms ∅ := by
  have barrenQueue : ∀ task ∈ (({} : Pool Task TaskError).submitAll tasks).queue, task.Barren := by
    rw [Pool.queue_submitAll]
    exact barren
  have same := TaskContext.nextDelta_drain_of_barren rfl barrenQueue unlimited drained
  refine ⟨fun other tuple holds => ?_, fun _ member => member.elim⟩
  exact absurd (same ▸ holds) (hosts.collected other tuple)

end Workspace.Hosts

/-! ## A sample rule -/

/-- Every column of every tuple is an integer. -/
def FactStore.OfInts (store : FactStore) (terms : TermStore) : Prop :=
  ∀ entry ∈ store.relations, ∀ tuple ∈ entry.2.masterIndex.tuples, ∀ id ∈ tuple,
    (terms.int? id).isSome = true

instance (store : FactStore) (terms : TermStore) : Decidable (store.OfInts terms) :=
  inferInstanceAs (Decidable (∀ entry ∈ store.relations, ∀ tuple ∈ entry.2.masterIndex.tuples,
    ∀ id ∈ tuple, (terms.int? id).isSome = true))

theorem TermStore.exists_denotes_of_int? {terms : TermStore} {id : TermId}
    (isInt : (terms.int? id).isSome = true) : ∃ value, terms.Denotes id value := by
  unfold int? at isInt
  split at isInt
  · next value resolved => exact ⟨.int value, resolved⟩
  · cases isInt

theorem FactStore.OfInts.within {store : FactStore} {terms : TermStore}
    (ofInts : store.OfInts terms) : store.Within terms Set.univ := by
  rintro symbol tuple ⟨relation, found, member⟩
  obtain ⟨entry, entryEq, rfl⟩ := Option.map_eq_some_iff.mp found
  have columns := ofInts entry (List.mem_of_find?_eq_some entryEq) tuple member
  clear member
  suffices ∃ values, terms.DenotesAll tuple values from this.imp fun _ denotes => ⟨denotes, trivial⟩
  induction tuple with
  | nil => exact ⟨[], trivial⟩
  | cons id tuple ih =>
      obtain ⟨values, denotesAll⟩ :=
        ih fun other inside => columns other (List.mem_cons_of_mem _ inside)
      obtain ⟨value, denotes⟩ := TermStore.exists_denotes_of_int? (columns id List.mem_cons_self)
      exact ⟨value :: values, denotes, denotesAll⟩

namespace Sample

/-- A path is made longer by an edge, unless its last node is apart from another. -/
def extending : DeltaRule where
  head := atom path [.var "X", .var "Z"]
  body := [
    { literal := .predicate (atom path [.var "X", .var "Y"]), delta := true },
    { literal := .predicate (atom edge [.var "Y", .var "Z"]) },
    { literal := .predicate (atom apart [.var "Y", .var "V"] true) }]

theorem marksPositive_extending : DeltaRule.MarksPositive extending.body := by
  intro atom marked
  simp [extending] at marked
  rw [marked]
  rfl

def resources : Planner.Resources where
  terms := { terms := #[.int 1, .int 2, .int 3] }
  main := .ofSymbols [edge, path, apart]
  delta := .ofSymbols [path]

theorem resources_valid : resources.Valid where
  distinct := by
    unfold TermStore.Distinct
    decide
  main := StorePlan.valid_ofSymbols _
  delta := StorePlan.valid_ofSymbols _

/-- The paths that are known, the edges, and a node that is apart. -/
def updates : List FactStore.Update :=
  [.addAll path [[⟨0⟩, ⟨1⟩], [⟨0⟩, ⟨2⟩]], .addAll edge [[⟨1⟩, ⟨0⟩], [⟨1⟩, ⟨2⟩], [⟨2⟩, ⟨1⟩]],
    .add apart [⟨2⟩, ⟨0⟩]]

theorem fits_updates : ∀ update ∈ updates, update.Fits := by
  simp [updates, FactStore.Update.Fits, path, edge, apart]

def stores (separateDeltas : Bool) (planned : Planner.Resources) : Workspace where
  terms := planned.terms
  db := (planned.main.build {}).applyAll updates
  delta := ((if separateDeltas then planned.delta else planned.main).build {}).applyAll updates
  nextDelta := planned.delta.build {}
  draws := { number := id }

/-- Whether rules that derive paths can be run against the stores: tasks run to their end, without a
failure and with room left. -/
def finishes (separateDeltas : Bool) (planned : Planner.Resources) (tasks : List Task) : Bool :=
  let workspace := stores separateDeltas planned
  ((({} : Pool Task TaskError).submitAll tasks).drain
      (TaskContext.run { functions, strategy := .rounds, taskSize := 1 }) id 20 workspace).any
    fun outcome => outcome.1.failures.isEmpty && decide outcome.2.terms.HasRoom

theorem exists_of_finishes {separateDeltas : Bool} {planned : Planner.Resources} {tasks : List Task}
    (finished : finishes separateDeltas planned tasks = true) :
    ∃ pool last, (({} : Pool Task TaskError).submitAll tasks).drain
        (TaskContext.run { functions, strategy := .rounds, taskSize := 1 }) id 20
          (stores separateDeltas planned) = some (pool, last) ∧
      pool.failures = [] ∧ last.terms.HasRoom := by
  obtain ⟨⟨pool, last⟩, drained, ended⟩ := (Option.any_eq_true _ _).mp finished
  rw [Bool.and_eq_true, List.isEmpty_iff, decide_eq_true_iff] at ended
  exact ⟨pool, last, drained, ended⟩

/-- The stores are bounded, their tuples denote values, and they register the paths. -/
abbrev Ready (separateDeltas : Bool) (planned : Planner.Resources) : Prop :=
  (stores separateDeltas planned).db.OfInts planned.terms ∧
    (stores separateDeltas planned).delta.OfInts planned.terms ∧
      (stores separateDeltas planned).db.limits.Bounded ∧
        (stores separateDeltas planned).delta.limits.Bounded ∧
          (planned.delta.patterns? path).isSome = true

theorem Ready.filledFrom {separateDeltas : Bool} {planned : Planner.Resources}
    (ready : Ready separateDeltas planned) (valid : planned.Valid) :
    (stores separateDeltas planned).FilledFrom separateDeltas planned where
  terms := .refl planned.terms
  distinct := valid.distinct
  db := ⟨{}, updates, fits_updates, rfl⟩
  delta := ⟨{}, updates, fits_updates, rfl⟩
  nextDelta := ⟨{}, rfl⟩
  db_denotes := ready.1.within
  delta_denotes := ready.2.1.within

theorem exists_ok_of_any {ε α : Type} {outcome : Except ε α} {check : α → Bool}
    (checked : outcome.toOption.any check = true) :
    ∃ value, outcome = .ok value ∧ check value = true := by
  cases outcome with
  | error => cases checked
  | ok value => exact ⟨value, rfl, checked⟩

end Sample

/-! ## A rule that is evaluated -/

section

variable {meaning : Interpretation} {functions : Registry} {rule ordered : DeltaRule}
  {optimization : Optimization} {resources planned final : Planner.Resources} {plan : RulePlan}
  {workspace last : Workspace} {taskSize fuel : Nat} {order : Nat → Nat}
  {pool : Pool Task TaskError}

/-- A rule that has been ordered, planned and run reports the heads of its instances and nothing else:
marked atoms are looked up in the delta store, all others in the main store.  A head that the main store
holds is dropped when it is reported, and the others are collected. -/
theorem evaluate_reports_consequences (computes : functions.Computes meaning)
    (marksPositive : DeltaRule.MarksPositive rule.body)
    (headLength : rule.head.args.length = rule.head.symbol.arity)
    (orderedEq : rule.ordered optimization = .ok ordered) (valid : resources.Valid)
    (plannedEq : RulePlan.ofRule functions true ordered resources = .ok (plan, planned))
    (continues : final.Continues planned)
    (registered : (final.delta.patterns? rule.head.symbol).isSome = true)
    (filled : workspace.FilledFrom true final) (dbBounded : workspace.db.limits.Bounded)
    (deltaBounded : workspace.delta.limits.Bounded)
    (drained : (({} : Pool Task TaskError).submitAll [.evaluate plan]).drain
      (TaskContext.run { functions, strategy := .rounds, taskSize }) order fuel workspace =
        some (pool, last))
    (noFailure : pool.failures = []) (room : last.terms.HasRoom) :
    TaskContext.ReportsExactly { functions, strategy := .rounds, taskSize } order
        (({} : Pool Task TaskError).submitAll [.evaluate plan]) workspace last.terms
        (rule.consequences meaning
          (reading (workspace.db.model workspace.terms) (workspace.delta.model workspace.terms))
            (workspace.db.model workspace.terms)) ∧
      last.nextDelta.Shows last.terms
        (rule.consequences meaning
          (reading (workspace.db.model workspace.terms) (workspace.delta.model workspace.terms))
            (workspace.db.model workspace.terms) \ workspace.db.model workspace.terms) := by
  obtain ⟨-, rfl, names, made⟩ := RulePlan.made_of_ofRule valid plannedEq
  have orderedFrom := DeltaRule.orderedFrom_of_ordered orderedEq
  have hosts : workspace.Hosts (final.referents true) plan.headSymbol :=
    filled.hosts continues.valid (by rwa [RulePlan.headSymbol, orderedFrom.head_eq])
  refine hosts.reports_drained (made.mono continues) orderedFrom marksPositive headLength computes
    (Strategy.bounded_rounds dbBounded deltaBounded) ?_ ?_ drained noFailure room
  · exact fun sound => List.forall_mem_singleton.mpr sound
  · exact fun fact derived => ⟨_, List.mem_singleton_self _, derived⟩

theorem evaluate_reports_consequences_sample :
    ∃ ordered plan planned pool last, Sample.extending.ordered .boundRatio = .ok ordered ∧
      RulePlan.ofRule Sample.functions true ordered Sample.resources = .ok (plan, planned) ∧
        (({} : Pool Task TaskError).submitAll [.evaluate plan]).drain
            (TaskContext.run { functions := Sample.functions, strategy := .rounds, taskSize := 1 })
            id 20 (Sample.stores true planned) = some (pool, last) ∧
          pool.failures = [] ∧
            TaskContext.ReportsExactly
                { functions := Sample.functions, strategy := .rounds, taskSize := 1 } id
                (({} : Pool Task TaskError).submitAll [.evaluate plan])
                (Sample.stores true planned) last.terms
                (Sample.extending.consequences Sample.meaning
                  (reading ((Sample.stores true planned).db.model planned.terms)
                    ((Sample.stores true planned).delta.model planned.terms))
                  ((Sample.stores true planned).db.model planned.terms)) ∧
              last.nextDelta.Shows last.terms
                (Sample.extending.consequences Sample.meaning
                  (reading ((Sample.stores true planned).db.model planned.terms)
                    ((Sample.stores true planned).delta.model planned.terms))
                  ((Sample.stores true planned).db.model planned.terms) \
                (Sample.stores true planned).db.model planned.terms) := by
  have checked : ((Sample.extending.ordered .boundRatio).toOption.any fun ordered =>
      (RulePlan.ofRule Sample.functions true ordered Sample.resources).toOption.any fun outcome =>
        decide (Sample.Ready true outcome.2) &&
          Sample.finishes true outcome.2 [.evaluate outcome.1]) = true := by
    decide +kernel
  obtain ⟨ordered, orderedEq, checked⟩ := Sample.exists_ok_of_any checked
  obtain ⟨⟨plan, planned⟩, plannedEq, checked⟩ := Sample.exists_ok_of_any checked
  rw [Bool.and_eq_true, decide_eq_true_iff] at checked
  obtain ⟨ready, finished⟩ := checked
  obtain ⟨pool, last, drained, noFailure, room⟩ := Sample.exists_of_finishes finished
  have valid := (RulePlan.made_of_ofRule Sample.resources_valid plannedEq).1.valid
  exact ⟨ordered, plan, planned, pool, last, orderedEq, plannedEq, drained, noFailure,
    evaluate_reports_consequences Sample.computes Sample.marksPositive_extending rfl orderedEq
      Sample.resources_valid plannedEq (.refl valid) ready.2.2.2.2 (ready.filledFrom valid)
      ready.2.2.1 ready.2.2.2.1 drained noFailure room⟩

end

/-! ## A rule that is triggered -/

/-- The delta literal of a plan is a marked atom of the relation that it enumerates. -/
theorem RulePlan.Fits.delta_at {layout : Layout} {strategy : Strategy} {workspace : Workspace}
    {plan : RulePlan} (fits : plan.Fits layout strategy workspace) {symbol : RelationSymbol}
    (isDelta : plan.deltaSymbol? = some symbol) :
    ∃ position atom, plan.deltaPosition? = some position ∧ plan.firstScan?.isSome = true ∧
      plan.source.body[position]? = some { literal := .predicate atom, delta := true } ∧
        atom.negated = false ∧ atom.symbol = symbol := by
  unfold deltaSymbol? at isDelta
  split at isDelta
  · next planned found =>
      obtain ⟨position, deltaEq, atPosition⟩ := Option.bind_eq_some_iff.mp found
      obtain rfl := Option.some.inj isDelta
      obtain ⟨literal, atSource, atom, literalEq, positive, atomFits⟩ :=
        forall₂_getElem? fits.body atPosition
      obtain ⟨other, atSource', marked⟩ := DeltaRule.marked_of_deltaPosition? deltaEq
      obtain rfl : literal = other := Option.some.inj (atSource.symm.trans atSource')
      refine ⟨position, atom, deltaEq, ?_, ?_, positive, atomFits.symbol_eq.symm⟩
      · exact List.findIdx?_isSome.trans
          (List.any_eq_true.mpr ⟨_, List.mem_of_getElem? atPosition, rfl⟩)
      · rw [atSource, ← literalEq, ← marked]
  · cases isDelta

theorem RulePlan.Sound.trigger {frame : Frame} {workspace : Workspace} {plan : RulePlan}
    (sound : plan.Sound frame .rounds workspace) {symbol : RelationSymbol}
    (isDelta : plan.deltaSymbol? = some symbol) {tuple : Tuple}
    (holds : workspace.delta.Holds symbol tuple) :
    (Task.trigger plan tuple).Sound frame .rounds workspace := by
  refine ⟨sound, fun other reads => ?_⟩
  obtain rfl : symbol = other := Option.some.inj (isDelta.symm.trans reads)
  exact holds

/-- What a delta rule derives is promised by a trigger for one of the tuples of its delta relation. -/
theorem exists_trigger_promises {frame : Frame} {workspace : Workspace} {plan : RulePlan}
    (fits : plan.Fits frame.toLayout .rounds workspace) {symbol : RelationSymbol}
    (isDelta : plan.deltaSymbol? = some symbol)
    (certain : frame.certain true ⊆ workspace.delta.model workspace.terms) {fact : GroundFact}
    (derived : fact ∈
      plan.source.consequences frame.meaning frame.certain (frame.certain false)) :
    ∃ tuple, workspace.delta.Holds symbol tuple ∧
      (Task.trigger plan tuple).Promises frame .rounds workspace fact := by
  obtain ⟨position, atom, deltaEq, -, atSource, positive, rfl⟩ := fits.delta_at isDelta
  obtain ⟨assignment, concludes⟩ := RulePlan.exists_concludes derived
  have sure := concludes.1 _ (List.mem_of_getElem? atSource)
  simp only [Frame.Sure, BodyLiteral.Holds, Literal.Holds, positive] at sure
  obtain ⟨values, valuesEq, known⟩ := sure
  obtain ⟨tuple, holds, denotes⟩ := certain known
  exact ⟨tuple, holds, assignment, position, atom, values, deltaEq, by rw [atSource]; rfl,
    concludes, valuesEq, denotes⟩

section

variable {meaning : Interpretation} {functions : Registry} {config : Config} {variant : DeltaRule}
  {resources planned final : Planner.Resources} {plan : RulePlan} {symbol : RelationSymbol}
  {workspace last last' : Workspace} {taskSize taskSize' fuel fuel' : Nat} {order order' : Nat → Nat}
  {pool pool' : Pool Task TaskError}

/-- What a rule derives from the stores and the main store does not hold.  Views that are read without a
limit hold nothing, so that nothing is found then. -/
def DeltaRule.newConsequences (rule : DeltaRule) (meaning : Interpretation) (workspace : Workspace) :
    Model :=
  {fact ∈ rule.consequences meaning
      (reading (workspace.db.model workspace.terms) (workspace.delta.model workspace.terms))
        (workspace.db.model workspace.terms) \ workspace.db.model workspace.terms |
    workspace.db.limits.Bounded}

/-- A delta rule collects the same whether it reads the relation of its delta literal whole or is
triggered by each of the tuples that the relation lists, and these are all that it holds unless views
are read without a limit. -/
theorem triggers_collect_as_evaluate (computes : functions.Computes meaning)
    (eager : config.eager = true) (marksPositive : DeltaRule.MarksPositive variant.body)
    (headLength : variant.head.args.length = variant.head.symbol.arity) (valid : resources.Valid)
    (plannedEq : Evaluation.planVariant functions config variant resources = .ok (plan, planned))
    (isDelta : plan.deltaSymbol? = some symbol) (continues : final.Continues planned)
    (hosts : workspace.Hosts (final.referents false) variant.head.symbol)
    (whole : workspace.delta = workspace.db)
    (evaluated : (({} : Pool Task TaskError).submitAll [.evaluate plan]).drain
      (TaskContext.run { functions, strategy := .rounds, taskSize }) order fuel workspace =
        some (pool, last))
    (noFailure : pool.failures = []) (room : last.terms.HasRoom)
    (triggered : (({} : Pool Task TaskError).submitAll
      ((workspace.db.tuplesOf symbol).map (.trigger plan))).drain
        (TaskContext.run { functions, strategy := .rounds, taskSize := taskSize' }) order' fuel'
          workspace = some (pool', last'))
    (noFailure' : pool'.failures = []) (room' : last'.terms.HasRoom) :
    (last.nextDelta.Shows last.terms (variant.isolateCalls.newConsequences meaning workspace) ∧
        last'.nextDelta.Shows last'.terms (variant.isolateCalls.newConsequences meaning workspace)) ∧
      (workspace.db.limits.Bounded → ∀ tuple,
        tuple ∈ workspace.db.tuplesOf symbol ↔ workspace.db.Holds symbol tuple) := by
  refine ⟨?_, fun bounded tuple => FactStore.mem_tuplesOf bounded⟩
  obtain ⟨-, plans⟩ := planVariant_produces valid variant plan planned plannedEq
  obtain ⟨names, made⟩ := plans.made
  rw [eager] at made
  have preparedEq : variant.prepared config = variant.isolateCalls := if_pos eager
  have ordered := preparedEq ▸ plans.ordered
  have preparedPositive := DeltaRule.marksPositive_isolateBody marksPositive 0
  have hosts : workspace.Hosts (final.referents false) plan.headSymbol := by
    rw [RulePlan.headSymbol, ordered.head_eq]
    exact hosts
  have sound : plan.Sound (Workspace.Hosts.frame meaning workspace names plan) .rounds workspace :=
    hosts.sound (made.mono continues) ordered preparedPositive headLength
  by_cases bounded : workspace.db.limits.Bounded
  · have sourceBounded := Strategy.bounded_rounds bounded (whole.symm ▸ bounded)
    have newEq : variant.isolateCalls.newConsequences meaning workspace =
        variant.isolateCalls.consequences meaning
          (reading (workspace.db.model workspace.terms) (workspace.delta.model workspace.terms))
            (workspace.db.model workspace.terms) \ workspace.db.model workspace.terms :=
      Set.sep_eq_self_iff_mem_true.mpr fun _ _ => bounded
    rw [newEq]
    refine ⟨(hosts.reports_drained (made.mono continues) ordered preparedPositive headLength computes
        sourceBounded ?_ ?_ evaluated noFailure room).2,
      (hosts.reports_drained (made.mono continues) ordered preparedPositive headLength computes
        sourceBounded ?_ ?_ triggered noFailure' room').2⟩
    · exact fun sound => List.forall_mem_singleton.mpr sound
    · exact fun fact derived => ⟨_, List.mem_singleton_self _, derived⟩
    · intro sound task member
      obtain ⟨tuple, listed, rfl⟩ := List.mem_map.mp member
      exact sound.trigger isDelta (whole.symm ▸ (FactStore.mem_tuplesOf bounded).mp listed)
    · intro fact derived
      obtain ⟨tuple, holds, promises⟩ :=
        exists_trigger_promises sound.fits isDelta (fun _ known => known) derived
      exact ⟨_, List.mem_map_of_mem ((FactStore.mem_tuplesOf bounded).mpr (whole ▸ holds)), promises⟩
  · -- No lookup finds anything, and no tuple is listed that could trigger the rule.
    have unlimited : workspace.Unlimited := ⟨bounded, whole.symm ▸ bounded⟩
    obtain ⟨-, -, -, scans, -⟩ := sound.fits.delta_at isDelta
    have nothing : variant.isolateCalls.newConsequences meaning workspace = ∅ :=
      Set.sep_eq_empty_iff_mem_false.mpr fun _ _ => bounded
    rw [nothing]
    refine ⟨hosts.shows_empty unlimited (List.forall_mem_singleton.mpr (.evaluate scans)) evaluated,
      hosts.shows_empty unlimited ?_ triggered⟩
    simp [FactStore.tuplesOf_of_not_bounded bounded]

theorem triggers_collect_as_evaluate_sample :
    ∃ plan planned pool last pool' last',
      Evaluation.planVariant Sample.functions { eager := true } Sample.extending Sample.resources =
          .ok (plan, planned) ∧
        (({} : Pool Task TaskError).submitAll [.evaluate plan]).drain
            (TaskContext.run { functions := Sample.functions, strategy := .rounds, taskSize := 1 })
            id 20 (Sample.stores false planned) = some (pool, last) ∧
          (({} : Pool Task TaskError).submitAll
              (((Sample.stores false planned).db.tuplesOf Sample.path).map (.trigger plan))).drain
              (TaskContext.run { functions := Sample.functions, strategy := .rounds, taskSize := 1 })
              id 20 (Sample.stores false planned) = some (pool', last') ∧
            (last.nextDelta.Shows last.terms (Sample.extending.isolateCalls.newConsequences
                Sample.meaning (Sample.stores false planned)) ∧
              last'.nextDelta.Shows last'.terms (Sample.extending.isolateCalls.newConsequences
                Sample.meaning (Sample.stores false planned))) ∧
              ∀ tuple, tuple ∈ (Sample.stores false planned).db.tuplesOf Sample.path ↔
                (Sample.stores false planned).db.Holds Sample.path tuple := by
  have checked : (Evaluation.planVariant Sample.functions { eager := true } Sample.extending
      Sample.resources).toOption.any (fun outcome =>
        decide (Sample.Ready false outcome.2 ∧ outcome.1.deltaSymbol? = some Sample.path) &&
          (Sample.finishes false outcome.2 [.evaluate outcome.1] &&
            Sample.finishes false outcome.2
              (((Sample.stores false outcome.2).db.tuplesOf Sample.path).map
                (.trigger outcome.1)))) = true := by
    decide +kernel
  obtain ⟨⟨plan, planned⟩, plannedEq, checked⟩ := Sample.exists_ok_of_any checked
  rw [Bool.and_eq_true, Bool.and_eq_true, decide_eq_true_iff] at checked
  obtain ⟨⟨ready, isDelta⟩, finished, finished'⟩ := checked
  obtain ⟨pool, last, evaluated, noFailure, room⟩ := Sample.exists_of_finishes finished
  obtain ⟨pool', last', triggered, noFailure', room'⟩ := Sample.exists_of_finishes finished'
  have valid := (planVariant_produces Sample.resources_valid _ _ _ plannedEq).1.valid
  obtain ⟨same, listed⟩ := triggers_collect_as_evaluate Sample.computes rfl
    Sample.marksPositive_extending rfl Sample.resources_valid plannedEq isDelta (.refl valid)
    ((ready.filledFrom valid).hosts valid ready.2.2.2.2) rfl evaluated noFailure room triggered
    noFailure' room'
  exact ⟨plan, planned, pool, last, pool', last', plannedEq, evaluated, triggered, same,
    listed ready.2.2.1⟩

end

end Datalog
