import Datalog.Proofs.Safety.Bodies

/-!
# Safe tasks run safely

A safe task leaves everything in order and fails in a call or not at all, and the tasks that it spawns
are safe again.  So whatever the order in which a pool takes its tasks, and although the others go on
when one of them has failed, all failures that the pool records come from calls.
-/

namespace Datalog

variable {context : TaskContext} {plan : RulePlan} {origin : RulePlan.Origin} {state : TaskState}
  {position : Nat}

/-! ## Prefixes of bodies -/

/-- Literals of a safe plan without a scan among them are filtered unless a call fails. -/
theorem RulePlan.Safe.filterAll_checks (safe : plan.Safe context.functions origin) {count : Nat}
    (inside : position + count ≤ plan.body.length)
    (noScan : ∀ planned ∈ (plan.body.drop position).take count, planned.isScan = false)
    (inOrder : state.InOrder context.functions)
    (knows : state.substitution.Knows origin.names (plan.knownBefore position)) :
    TaskM.Checks context.functions origin.names (plan.knownBefore (position + count))
      (context.filterAll ((plan.body.drop position).take count)) state := by
  induction count generalizing position state with
  | zero => exact ⟨state.bindings, rfl, .refl _, fun _ => knows⟩
  | succ count ih =>
      have here : position < plan.body.length := by omega
      have atPlan := List.getElem?_eq_getElem here
      rw [drop_eq_cons atPlan, List.take_succ_cons] at noScan ⊢
      unfold TaskContext.filterAll
      refine (safe.filter_checks atPlan (noScan _ List.mem_cons_self) inOrder knows).bind ?_
      rintro success _ ⟨bindings, rfl, extended, learned⟩
      cases success with
      | false => exact ⟨bindings, rfl, extended, by simp⟩
      | true =>
          have rest := ih (by omega) (fun other member => noScan other (List.mem_cons_of_mem _ member))
            (inOrder.withBindings bindings) (learned rfl)
          have positionEq : position + (count + 1) = position + 1 + count := by omega
          rw [positionEq]
          refine rest.mono ?_ ?_
          · rintro success _ ⟨later, rfl, extended', learned'⟩
            exact ⟨later, rfl, extended'.trans extended, learned'⟩
          · rintro error _ ⟨⟨later, rfl⟩, failed⟩
            exact ⟨⟨later, rfl⟩, failed⟩

/-- A task that starts with unbound slots filters the literals before a position. -/
theorem RulePlan.Safe.filterPrefix_checks (safe : plan.Safe context.functions origin)
    (inside : position ≤ plan.body.length)
    (noScan : ∀ planned ∈ plan.body.take position, planned.isScan = false)
    (inOrder : state.InOrder context.functions)
    (unbound : state.substitution = .unbound plan.slots) :
    TaskM.Checks context.functions origin.names (plan.knownBefore position)
      (context.filterAll (plan.body.take position)) state := by
  have knows : state.substitution.Knows origin.names (plan.knownBefore 0) := by
    rw [knownBefore_zero, unbound, safe.made.slots_eq]
    exact .unbound origin.names
  have start : 0 + position ≤ plan.body.length := by omega
  have filtered := safe.filterAll_checks start (by simpa using noScan) inOrder knows
  simpa using filtered

theorem scannedAtom_safe {atom : PlanAtom} (atPlan : plan.body[position]? = some (.scan atom))
    {stopped : TaskError → TaskState → Prop} :
    Leaves (TaskContext.scannedAtom plan position) state
      (fun found later => found = atom ∧ later = state) stopped := by
  unfold TaskContext.scannedAtom
  rw [atPlan]
  exact ⟨rfl, rfl⟩

/-- No atom stands before a marked one. -/
theorem DeltaRule.no_atom_before {seen : Bool} {body : List BodyLiteral}
    (deltaFirst : DeltaRule.deltaFirstFrom seen body = true) {marked : Atom}
    (atPosition : body[position]? = some { literal := .predicate marked, delta := true }) :
    seen = false ∧ ∀ place < position, ∀ literal, body[place]? = some literal →
      ∀ atom, literal.literal ≠ .predicate atom := by
  induction body generalizing seen position with
  | nil => simp at atPosition
  | cons first body ih =>
      obtain ⟨literal, delta⟩ := first
      cases position with
      | zero =>
          obtain ⟨rfl, rfl⟩ := BodyLiteral.mk.inj (Option.some.inj atPosition)
          unfold DeltaRule.deltaFirstFrom at deltaFirst
          exact ⟨by simpa using (Bool.and_eq_true_iff.mp deltaFirst).1, by simp⟩
      | succ position =>
          cases literal with
          | unification lhs rhs negated =>
              unfold DeltaRule.deltaFirstFrom at deltaFirst
              obtain ⟨unseen, none⟩ := ih deltaFirst atPosition
              refine ⟨unseen, fun place earlier other atPlace atom => ?_⟩
              cases place with
              | zero =>
                  obtain rfl := Option.some.inj atPlace
                  simp
              | succ place => exact none place (by omega) other atPlace atom
          | predicate atom =>
              unfold DeltaRule.deltaFirstFrom at deltaFirst
              cases (ih (Bool.and_eq_true_iff.mp deltaFirst).2 atPosition).1

/-- The delta literal of a triggerable plan is a scan, and none stands before it. -/
theorem RulePlan.Safe.delta_at {functions : Registry} (safe : plan.Safe functions origin)
    (deltaFirst : plan.source.isDeltaFirst = true) (deltaEq : plan.deltaPosition? = some position) :
    ∃ atom, plan.body[position]? = some (.scan atom) ∧
      ∀ planned ∈ plan.body.take position, planned.isScan = false := by
  obtain ⟨literal, atSource, isMarked⟩ := DeltaRule.marked_of_deltaPosition? deltaEq
  have inBody := List.mem_of_getElem? atSource
  have inside : position < plan.body.length := by
    rw [safe.length_eq]
    exact (List.getElem?_eq_some_iff.mp atSource).1
  have atPlan := List.getElem?_eq_getElem inside
  generalize plan.body[position] = planned at atPlan
  obtain ⟨marked, literalEq, positive⟩ := safe.marked literal inBody isMarked
  obtain ⟨literal, delta⟩ := literal
  obtain rfl : literal = .predicate marked := literalEq
  obtain rfl : delta = true := isMarked
  obtain ⟨-, noAtom⟩ := DeltaRule.no_atom_before deltaFirst atSource
  have here := (safe.literal_of_source atPlan atSource).planned
  cases planned with
  | scan atom =>
      refine ⟨atom, atPlan, fun other member => ?_⟩
      obtain ⟨place, placeInside, rfl⟩ := List.mem_iff_getElem.mp member
      have earlier : place < position := by
        have := placeInside
        rw [List.length_take] at this
        omega
      have atPlace := List.getElem?_eq_getElem placeInside
      rw [List.getElem?_take_of_lt earlier] at atPlace
      generalize (plan.body.take position)[place] = other at atPlace
      cases other with
      | scan early =>
          obtain ⟨source, scans⟩ := safe.exists_scans atPlace
          cases noAtom place earlier _ scans.literal.atSource source rfl
      | unify | disunify | absent => rfl
  | absent atom =>
      unfold Planner.PlannedLiteral at here
      exact absurd here.1 (by simp [positive])
  | unify | disunify => exact here.elim

/-! ## Tasks -/

variable (triggerable : ∀ plan ∈ context.strategy.triggered, plan.Triggerable context.functions)

include triggerable

theorem evaluate_safe (safe : plan.Safe context.functions origin)
    (inOrder : state.InOrder context.functions) :
    Leaves (context.evaluate plan) state (fun _ later => later.InOrder context.functions)
      (TaskState.StoppedByCall context.functions) := by
  have startInOrder := inOrder.withSubstitution (.unbound plan.slots)
  unfold TaskContext.evaluate
  rw [leaves_bind, TaskM.setSubstitution, leaves_modify]
  cases scanEq : plan.firstScan? with
  | none =>
      have runs := safe.evalBody_safe triggerable (List.drop_zero : plan.body.drop 0 = plan.body)
        (Nat.zero_le _)
      refine (runs _ startInOrder ?_).imp_done fun _ _ done => done.1
      rw [RulePlan.Safe.knownBefore_zero, safe.made.slots_eq]
      exact .unbound origin.names
  | some position =>
      obtain ⟨inside, isScan, before⟩ := List.findIdx?_eq_some_iff_getElem.mp scanEq
      have noScan : ∀ planned ∈ plan.body.take position, planned.isScan = false := by
        intro planned member
        obtain ⟨place, placeInside, rfl⟩ := List.mem_iff_getElem.mp member
        have earlier : place < position := by
          have := placeInside
          rw [List.length_take] at this
          omega
        simpa using before place earlier
      have atPlan := List.getElem?_eq_getElem inside
      generalize plan.body[position] = planned at isScan atPlan
      cases planned with
      | scan atom =>
          obtain ⟨source, scans⟩ := safe.exists_scans atPlan
          refine ((safe.filterPrefix_checks (Nat.le_of_lt inside) noScan startInOrder rfl).imp_stopped
            fun _ _ => TaskM.Checks.stopped startInOrder).bind ?_
          rintro success _ ⟨bindings, rfl, -, learned⟩
          have filtered := startInOrder.withBindings bindings
          cases success with
          | false => exact filtered
          | true =>
              refine (scannedAtom_safe atPlan).bind ?_
              rintro _ _ ⟨rfl, rfl⟩
              refine (scans.lookup_safe filtered (learned rfl)).bind ?_
              rintro view later ⟨laterInOrder, sized, same⟩
              rw [leaves_bind, leaves_get]
              refine (laterInOrder.spawn ?_).imp_done fun _ _ done => done.1
              exact ⟨origin, safe, same ▸ learned rfl, _, atPlan, sized⟩
      | unify | disunify | absent => cases isScan

/-- A scan goes through its tuples or leaves them to safe tasks. -/
theorem scan_safe {substitution : Substitution} {view : View}
    (safe : (Task.scan plan position substitution view).Safe context.functions)
    (inOrder : state.InOrder context.functions) :
    Leaves (context.scan plan position substitution view) state
      (fun _ later => later.InOrder context.functions)
      (TaskState.StoppedByCall context.functions) := by
  obtain ⟨origin, planSafe, knows, atom, atPlan, sized⟩ := safe
  obtain ⟨source, scans⟩ := planSafe.exists_scans atPlan
  have partSafe : ∀ part : View, part.Sized atom.symbol.arity →
      (Task.scan plan position substitution part).Safe context.functions :=
    fun part partSized => ⟨origin, planSafe, knows, atom, atPlan, partSized⟩
  have parts : Leaves (context.partsOf atom view) state
      (fun parts later => later.InOrder context.functions ∧ ∀ left right,
        parts = some (left, right) →
          left.Sized atom.symbol.arity ∧ right.Sized atom.symbol.arity)
      (TaskState.StoppedByCall context.functions) := by
    unfold TaskContext.partsOf
    split
    · rw [TaskContext.splitView, TaskM.updateWorkspace, leaves_modifyGet]
      refine ⟨⟨{ inOrder.stores with }, inOrder.spawned⟩, fun left right partsEq => ?_⟩
      exact View.sized_split ((inOrder.stores.storeFor context atom).index_lengths _ _) sized partsEq
    · exact ⟨inOrder, by simp⟩
  unfold TaskContext.scan
  refine (scannedAtom_safe atPlan).bind ?_
  rintro _ _ ⟨rfl, rfl⟩
  refine parts.bind ?_
  rintro parts middle ⟨middleInOrder, partsSized⟩
  cases parts with
  | some both =>
      obtain ⟨left, right⟩ := both
      obtain ⟨leftSized, rightSized⟩ := partsSized left right rfl
      refine (middleInOrder.spawn (partSafe left leftSized)).bind ?_
      rintro _ later ⟨laterInOrder, -⟩
      exact (laterInOrder.spawn (partSafe right rightSized)).imp_done fun _ _ done => done.1
  | none =>
      have further : position + 1 ≤ plan.body.length := (List.getElem?_eq_some_iff.mp atPlan).1
      have runs := scans.scanView_safe (planSafe.evalBody_safe triggerable rfl further) sized
      unfold TaskContext.scanParts
      rw [leaves_bind, TaskM.setSubstitution, leaves_modify]
      exact (runs _ (middleInOrder.withSubstitution substitution) knows).imp_done fun _ _ done => done.1

/-- A triggered rule matches its tuple after its filters and goes on with the rest of its body. -/
theorem trigger_safe {tuple : Tuple} (safe : (Task.trigger plan tuple).Safe context.functions)
    (inOrder : state.InOrder context.functions) :
    Leaves (context.trigger plan tuple) state (fun _ later => later.InOrder context.functions)
      (TaskState.StoppedByCall context.functions) := by
  obtain ⟨⟨⟨origin, planSafe⟩, deltaFirst⟩, lengths⟩ := safe
  unfold TaskContext.trigger
  cases deltaEq : plan.deltaPosition? with
  | none => exact inOrder
  | some position =>
      obtain ⟨atom, atPlan, noScan⟩ := planSafe.delta_at deltaFirst deltaEq
      obtain ⟨source, scans⟩ := planSafe.exists_scans atPlan
      have inside := (List.getElem?_eq_some_iff.mp atPlan).1
      have startInOrder := inOrder.withSubstitution (.unbound plan.slots)
      have length : tuple.length = atom.symbol.arity := by
        refine lengths atom.symbol ?_
        simp [RulePlan.deltaSymbol?, deltaEq, atPlan]
      dsimp only
      rw [leaves_bind, TaskM.setSubstitution, leaves_modify]
      refine ((planSafe.filterPrefix_checks (Nat.le_of_lt inside) noScan startInOrder rfl).imp_stopped
        fun _ _ => TaskM.Checks.stopped startInOrder).bind ?_
      rintro success _ ⟨bindings, rfl, -, learned⟩
      have filtered := startInOrder.withBindings bindings
      cases success with
      | false => exact filtered
      | true =>
          refine (scannedAtom_safe atPlan).bind ?_
          rintro _ _ ⟨rfl, rfl⟩
          refine ((scans.matchColumns_checks true length (learned rfl)).imp_stopped
            fun _ _ => TaskM.Checks.stopped filtered).bind ?_
          rintro isMatch _ ⟨matched, rfl, -, learnedHere⟩
          have matchedInOrder := filtered.withBindings matched
          cases isMatch with
          | false => exact matchedInOrder
          | true =>
              exact (planSafe.evalBody_safe triggerable rfl inside _ matchedInOrder
                (learnedHere rfl)).imp_done fun _ _ done => done.1

/-- What running a safe task leaves behind, whether it ends or stops. -/
theorem run_safe {task : Task} (safe : task.Safe context.functions) {workspace : Workspace}
    (valid : workspace.StoresValid) :
    (context.run task workspace).state.StoresValid ∧
      (∀ other ∈ (context.run task workspace).spawned, other.Safe context.functions) ∧
        ∀ error, (context.run task workspace).outcome = .error error →
          error.ComesFromCall context.functions := by
  let start : TaskState := { workspace, substitution := .unbound 0 }
  have inOrder : start.InOrder context.functions := ⟨valid, by simp [start]⟩
  have leaves : Leaves (context.steps task) start
      (fun _ later => later.InOrder context.functions)
      (TaskState.StoppedByCall context.functions) := by
    cases task with
    | load symbol facts => exact safe.elim
    | evaluate plan =>
        obtain ⟨origin, planSafe⟩ := safe
        exact evaluate_safe triggerable planSafe inOrder
    | scan plan position substitution view => exact scan_safe triggerable safe inOrder
    | trigger plan tuple => exact trigger_safe triggerable safe inOrder
  obtain ⟨later, stateEq, spawnedEq, ended⟩ := TaskContext.exists_ran leaves
  rw [← stateEq, ← spawnedEq]
  rcases ended with ⟨isOk, inOrder⟩ | ⟨error, failed, stopped⟩
  · exact ⟨inOrder.stores, inOrder.spawned, by simp [isOk]⟩
  · refine ⟨stopped.1.stores, stopped.1.spawned, fun error' same => ?_⟩
    obtain rfl := Except.error.inj (failed.symm.trans same)
    exact stopped.2

end Datalog
