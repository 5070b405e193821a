import Datalog.Proofs.Evaluation.Moments
import Datalog.Proofs.Evaluation.Pass

/-!
# What is reported

A tuple is reported where a body has come to its end and the head has been evaluated, whether the tuple
is new or not.  What a sound task reports denotes facts of the goal, at whatever moment it is reported
and whether or not the task ends.
-/

namespace Datalog

def Place.isTask : Place → Bool
  | .task _ => true
  | _ => false

/-- Filters and matches never lead to the end of a body. -/
def Place.isLeaf : Place → Bool
  | .filters _ | .filter _ | .columns .. | .terms .. | .term .. => true
  | .task _ | .body .. | .view .. | .range .. | .tuples .. => false

namespace TaskContext

/-- A step calls another one that belongs to the same task. -/
structure CallsWithin (context : TaskContext) (earlier later : Moment) : Prop where
  calls : context.Calls earlier later
  within : later.place.isTask = false

/-- One moment follows from another through calls of the same task. -/
def ReachesWithin (context : TaskContext) : Moment → Moment → Prop :=
  Relation.ReflTransGen context.CallsWithin

/-- Where nothing is left of a body, the tuple of the head is recorded. -/
inductive Reports (context : TaskContext) : Moment → RelationSymbol → Tuple → Prop where
  | head {plan : RulePlan} {state later : TaskState} {tuple : Tuple}
      (evaluated : TaskM.ofBindM (PlanTerm.evalList context.functions plan.head) state =
        .ok tuple later) :
      Reports context ⟨.body plan [], state⟩ plan.headSymbol tuple

/-- The moment at which a task is started in a workspace. -/
def start (task : Task) (workspace : Workspace) : Moment :=
  ⟨.task task, { workspace, substitution := .unbound 0 }⟩

/-- A task that is started in a workspace reports a tuple, sooner or later. -/
def ReportsIn (context : TaskContext) (task : Task) (workspace : Workspace)
    (symbol : RelationSymbol) (tuple : Tuple) : Prop :=
  ∃ moment, context.ReachesWithin (start task workspace) moment ∧
    context.Reports moment symbol tuple

variable {context : TaskContext} {earlier later moment : Moment} {task : Task}
  {workspace : Workspace} {symbol : RelationSymbol} {tuple : Tuple}

theorem after_start :
    (context.after (start task workspace)).workspace = (context.run task workspace).state := by
  simp only [after, start, run]
  cases context.steps task { workspace, substitution := .unbound 0 } <;> rfl

/-! ## The calls of a step that goes on -/

theorem bind_of_ok {ε σ α β : Type} {first : EStateM ε σ α} {next : α → EStateM ε σ β}
    {state middle : σ} {value : α} (outcome : first state = .ok value middle) :
    (first >>= next) state = next value middle := by
  simp only [bind, EStateM.bind, outcome]

theorem scannedAtom_eq_ok {plan : RulePlan} {position : Nat} {atom : PlanAtom}
    (scanned : plan.body[position]? = some (.scan atom)) (state : TaskState) :
    scannedAtom plan position state = .ok atom state := by
  unfold scannedAtom
  rw [scanned]
  rfl

section

variable {plan : RulePlan} {position : Nat} {atom : PlanAtom} {state middle last : TaskState}

/-- Reporting a tuple is recording it. -/
theorem after_of_evaluated (evaluated : TaskM.ofBindM (PlanTerm.evalList context.functions plan.head)
      state = .ok tuple middle) :
    context.after ⟨.body plan [], state⟩ = leftBy (context.record plan.headSymbol tuple middle) :=
  congrArg leftBy (bind_of_ok evaluated)

theorem evaluate_of_noScan (noScan : plan.firstScan? = none) :
    context.evaluate plan state =
      context.evalBody plan plan.body { state with substitution := .unbound plan.slots } := by
  unfold evaluate
  rw [noScan]
  exact bind_of_ok rfl

theorem trigger_of_match (delta : plan.deltaPosition? = some position)
    (filtered : context.filterAll (plan.body.take position)
      { state with substitution := .unbound plan.slots } = .ok true middle)
    (scanned : plan.body[position]? = some (.scan atom))
    (matched : TaskM.ofBindM (matchColumns context.functions true atom.args atom.pattern tuple)
      middle = .ok true last) :
    context.trigger plan tuple state =
      context.evalBody plan (plan.body.drop (position + 1)) last := by
  unfold trigger
  rw [delta]
  exact (bind_of_ok rfl).trans ((bind_of_ok filtered).trans
    ((bind_of_ok (scannedAtom_eq_ok scanned middle)).trans (bind_of_ok matched)))

theorem scan_of_partsOf {substitution : Substitution} {view : View}
    {parts : Option (View × View)} (scanned : plan.body[position]? = some (.scan atom))
    (split : context.partsOf atom view state = .ok parts middle) :
    context.scan plan position substitution view state =
      context.scanParts plan position substitution atom view parts middle := by
  unfold scan
  exact (bind_of_ok (scannedAtom_eq_ok scanned state)).trans (bind_of_ok split)

theorem evalBody_filter {literal : PlanLiteral} {literals : List PlanLiteral}
    (filters : literal.isScan = false) :
    context.evalBody plan (literal :: literals) =
      TaskM.undoing (do if ← context.filter literal then context.evalBody plan literals) := by
  cases literal with
  | scan => cases filters
  | _ => rfl

theorem evalBody_scan {literals : List PlanLiteral} {view : View}
    (found : context.lookup atom state = .ok view middle) :
    context.evalBody plan (.scan atom :: literals) state =
      context.scanView atom (context.evalBody plan literals) view middle :=
  bind_of_ok found

theorem scanRange_of_readChunk {continuation : TaskM Unit} {chunks : Nat} {keys : KeyRange}
    {tuples : List Tuple} {next : Option KeyRange}
    (read : (context.indexFor atom state.workspace).readChunk keys = (tuples, next)) :
    context.scanRange atom continuation (chunks + 1) keys state =
      (context.scanTuples atom continuation tuples >>= fun _ =>
        match next with
        | none => pure ()
        | some keys => context.scanRange atom continuation chunks keys) state := by
  change (fun chunk : List Tuple × Option KeyRange =>
    (context.scanTuples atom continuation chunk.1 >>= fun _ =>
      match chunk.2 with
      | none => pure ()
      | some keys => context.scanRange atom continuation chunks keys) state)
    ((context.indexFor atom state.workspace).readChunk keys) = _
  rw [read]

theorem scanRange_of_chunk {scan : ScanFrame} {chunks : Nat} {keys next : KeyRange}
    {tuples : List Tuple}
    (read : (context.indexFor scan.atom state.workspace).readChunk keys = (tuples, some next))
    (scanned : context.scanTuples scan.atom (context.continuation scan) tuples state =
      .ok () middle) :
    context.scanRange scan.atom (context.continuation scan) (chunks + 1) keys state =
      context.scanRange scan.atom (context.continuation scan) chunks next middle := by
  rw [scanRange_of_readChunk read]
  exact bind_of_ok scanned

theorem scanTuples_of_first {scan : ScanFrame} {tuples : List Tuple}
    (scanned : context.scanTuples scan.atom (context.continuation scan) [tuple] state =
      .ok () middle) :
    context.scanTuples scan.atom (context.continuation scan) (tuple :: tuples) state =
      context.scanTuples scan.atom (context.continuation scan) tuples middle := by
  obtain ⟨⟨⟩, between, first, ended⟩ := bind_eq_ok.mp scanned
  obtain rfl : between = middle := (EStateM.Result.ok.inj ended).2
  exact bind_of_ok first

theorem checking_of_ok {check : TaskM Bool} {step : TaskM Unit}
    (checked : check state = .ok true middle) : (do if ← check then step) state = step middle :=
  bind_of_ok checked

end

/-! ## The terms at the end of a step -/

theorem extends_leftBy_bind {α : Type} (first : TaskM α) {next : α → TaskM Unit}
    (interns : ∀ value, Interns (next value)) (state : TaskState) :
    (leftBy ((first >>= next) state)).workspace.terms.Extends
      (leftBy (first state)).workspace.terms := by
  simp only [bind, EStateM.bind]
  cases first state with
  | ok value middle => exact leftBy_of_leaves (interns value middle)
  | error error middle => exact .refl _

theorem workspace_leftBy_undoing (step : TaskM Unit) (state : TaskState) :
    (leftBy (TaskM.undoing step state)).workspace = (leftBy (step state)).workspace := by
  change (leftBy ((step >>= _) state)).workspace = _
  simp only [bind, EStateM.bind]
  cases step state <;> rfl

theorem extends_after (goesOn : moment.place.isLeaf = false) :
    (context.after moment).workspace.terms.Extends moment.state.workspace.terms := by
  obtain ⟨place, state⟩ := moment
  cases place with
  | task task =>
      exact leftBy_of_leaves (interns_iff_keeps.mpr (fun _ => context.keeps_steps task) state)
  | body plan literals => exact leftBy_of_leaves (context.interns_evalBody plan literals state)
  | view scan view =>
      exact leftBy_of_leaves
        (context.interns_scanView scan.atom (context.interns_evalBody _ _) view state)
  | range scan chunks keys =>
      exact leftBy_of_leaves
        (context.interns_scanRange scan.atom (context.interns_evalBody _ _) chunks keys state)
  | tuples scan tuples =>
      exact leftBy_of_leaves
        (context.interns_scanTuples scan.atom (context.interns_evalBody _ _) tuples state)
  | _ => cases goesOn

/-- When a step ends, the terms of those that it has called are there. -/
theorem CallsWithin.extends_after (calls : context.CallsWithin earlier later)
    (goesOn : later.place.isLeaf = false) :
    (context.after earlier).workspace.terms.Extends (context.after later).workspace.terms := by
  obtain ⟨calls, within⟩ := calls
  cases calls with
  | evaluateBody noScan =>
      simp only [after, steps, evaluate_of_noScan noScan]
      exact .refl _
  | triggerBody delta filtered scanned matched =>
      simp only [after, steps, trigger_of_match delta filtered scanned matched]
      exact .refl _
  | scan scanned whole =>
      simp only [after, steps, scan_of_partsOf scanned whole]
      exact .refl _
  | bodyRest filters holds =>
      simp only [after, evalBody_filter filters, workspace_leftBy_undoing, checking_of_ok holds]
      exact .refl _
  | bodyScan found =>
      simp only [after, evalBody_scan found]
      exact .refl _
  | array | firstRange => exact .refl _
  | @chunk scan chunks keys state =>
      refine extends_leftBy_bind _ (fun _ => ?_) state
      split
      · exact .pure
      · exact context.interns_scanRange scan.atom (context.interns_evalBody _ _) chunks _
  | nextRange read scanned =>
      simp only [after, scanRange_of_chunk read scanned]
      exact .refl _
  | @continuation scan tuple tuples state later matched =>
      let check := TaskM.ofBindM (matchColumns context.functions false scan.atom.args
        scan.atom.pattern tuple)
      have grown := extends_leftBy_bind (TaskM.undoing (do if ← check then context.continuation scan))
        (fun _ => context.interns_scanTuples scan.atom
          (context.interns_evalBody scan.plan scan.rest) tuples) state
      rw [workspace_leftBy_undoing, checking_of_ok matched] at grown
      exact grown
  | nextTuples scanned =>
      simp only [after, scanTuples_of_first scanned]
      exact .refl _
  | spawned => cases within
  | _ => cases goesOn

end TaskContext

/-! ## Soundness -/

variable {frame : Frame} {context : TaskContext}

/-- A scan matches the atom that its plan has before the literals that are left. -/
def ScanFrame.Sound (frame : Frame) (strategy : Strategy) (scan : ScanFrame) (key : Key)
    (state : TaskState) : Prop :=
  ∃ position atom, scan.plan.body.drop position = scan.rest ∧
    Scanning frame strategy scan.plan scan.atom atom (scan.plan.source.body.drop position) key state

/-- Whatever is reported from a moment on belongs to the goal. -/
def Moment.Sound (frame : Frame) (strategy : Strategy) : Moment → Prop
  | ⟨.task task, state⟩ => state.Ready frame strategy ∧ task.Sound frame strategy state.workspace
  | ⟨.body plan literals, state⟩ => ∃ position, plan.body.drop position = literals ∧
      Resuming frame strategy plan (plan.source.body.drop position) state
  | ⟨.view scan view, state⟩ => ∃ key index, scan.Sound frame strategy key state ∧
      (strategy.source scan.atom.delta state.workspace).index? scan.atom.symbol scan.atom.index =
          some index ∧
        view.From index key
  | ⟨.range scan _ keys, state⟩ => ∃ key index, scan.Sound frame strategy key state ∧
      (strategy.source scan.atom.delta state.workspace).index? scan.atom.symbol scan.atom.index =
          some index ∧
        index.Confined key keys
  | ⟨.tuples scan tuples, state⟩ => ∃ key, scan.Sound frame strategy key state ∧
      scan.atom.Found strategy key state.workspace tuples
  | _ => True

namespace TaskContext

variable {earlier later : Moment}

/-- What one call preserves. -/
theorem CallsWithin.sound (computes : context.functions.Computes frame.meaning)
    (calls : context.CallsWithin earlier later) (sound : earlier.Sound frame context.strategy)
    (room : later.state.workspace.terms.HasRoom) : later.Sound frame context.strategy := by
  obtain ⟨calls, within⟩ := calls
  cases calls with
  | @evaluateBody plan state noScan =>
      obtain ⟨ready, sound⟩ := sound
      exact ⟨0, List.drop_zero, ready_unbound ready plan.slots, sound,
        sound.leads state.workspace.terms plan.slots⟩
  | @triggerBody plan tuple state middle later position atom delta filtered scanned matched =>
      obtain ⟨ready, planSound, holds⟩ := sound
      have grown := (TaskM.interns_ofBindM (interns_matchColumns context.functions true atom.args
        atom.pattern tuple) middle).of_ok matched
      obtain ⟨bindings, rfl, prefixed⟩ :=
        (filterPrefix_leaves computes ready planSound position).of_ok filtered (grown.hasRoom room)
      obtain ⟨_, _, atomFits, positive, found, resuming⟩ :=
        prefixed.exists_delta planSound holds delta scanned
      have checks := checks_tuple computes resuming atomFits positive found
      obtain ⟨_, rfl, passed⟩ := checks.leaves.of_ok matched room
      exact ⟨position + 1, rfl, passed.resuming checks resuming.ready resuming.sound⟩
  | @scan plan position substitution view state middle atom scanned whole =>
      obtain ⟨ready, taskSound⟩ := sound
      obtain ⟨_, index, key, -, scanning, indexEq, isFrom⟩ :=
        scanning_of_sound ready taskSound scanned
      obtain ⟨⟨draws, rfl⟩, -⟩ := (partsOf_leaves indexEq).of_ok whole room
      exact ⟨key, index, ⟨position + 1, _, rfl,
        scanning.advance (advanced_withDraws scanning.ready draws)⟩, index?_withDraws indexEq draws,
          isFrom⟩
  | bodyRest filters holds =>
      obtain ⟨position, bodyEq, resuming⟩ := sound
      obtain ⟨literal, sourceEq, restEq, fits⟩ := resuming.sound.fits.exists_drop_eq_cons bodyEq
      rw [sourceEq] at resuming
      have checks := checks_filter computes resuming fits
      obtain ⟨_, rfl, passed⟩ := checks.leaves.of_ok holds room
      exact ⟨position + 1, restEq, passed.resuming checks resuming.ready resuming.sound⟩
  | bodyScan found =>
      obtain ⟨position, bodyEq, ready, planSound, leads⟩ := sound
      obtain ⟨⟨_, _⟩, sourceEq, restEq, atom, rfl, positive, fits⟩ :=
        planSound.fits.exists_drop_eq_cons bodyEq
      obtain rfl := fits.delta_eq
      rw [sourceEq] at leads
      obtain ⟨-, index, key, scanning, indexEq, isFrom, -⟩ :=
        (lookup_scanning computes ready planSound fits positive leads).of_ok found room
      exact ⟨key, index, ⟨position + 1, atom, restEq, scanning⟩, indexEq, isFrom⟩
  | array =>
      obtain ⟨key, index, scanSound, indexEq, isFrom⟩ := sound
      obtain ⟨_, _, _, scanning⟩ := id scanSound
      exact ⟨key, scanSound, scanning.found_array indexEq isFrom⟩
  | firstRange => exact sound
  | chunk =>
      obtain ⟨key, index, scanSound, indexEq, confined⟩ := sound
      obtain ⟨_, _, _, scanning⟩ := id scanSound
      rw [indexFor_eq indexEq]
      exact ⟨key, scanSound, scanning.found_readChunk indexEq confined⟩
  | @nextRange scan chunks keys next tuples state later read scanned =>
      obtain ⟨key, index, ⟨position, atom, restEq, scanning⟩, indexEq, confined⟩ := sound
      rw [indexFor_eq indexEq] at read
      have found := scanning.found_readChunk indexEq confined
      rw [read] at found
      have advanced := scanning.advanced_of_scanTuples computes restEq found scanned room
      obtain ⟨index', indexEq', -, confined', -⟩ :=
        scanning.exists_rest indexEq confined (congrArg Prod.snd read) advanced
      exact ⟨key, index', ⟨position, atom, restEq, scanning.advance advanced⟩, indexEq', confined'⟩
  | continuation matched =>
      obtain ⟨key, ⟨position, atom, restEq, scanning⟩, found⟩ := sound
      obtain ⟨⟨bound, holds⟩, -⟩ := List.forall_mem_cons.mp found
      have checks := checks_columns computes scanning holds bound
      obtain ⟨_, rfl, passed⟩ := checks.leaves.of_ok matched room
      exact ⟨position, restEq, passed.resuming checks scanning.ready scanning.sound⟩
  | nextTuples scanned =>
      obtain ⟨key, ⟨position, atom, restEq, scanning⟩, found⟩ := sound
      obtain ⟨foundFirst, foundRest⟩ := List.forall_mem_cons.mp found
      have advanced := scanning.advanced_of_scanTuples computes restEq
        (List.forall_mem_singleton.mpr foundFirst) scanned room
      exact ⟨key, ⟨position, atom, restEq, scanning.advance advanced⟩,
        PlanAtom.Found.mono foundRest advanced.grows⟩
  | spawned => cases within
  | _ => trivial

theorem CallsWithin.isLeaf (calls : context.CallsWithin earlier later)
    (leaf : earlier.place.isLeaf = true) : later.place.isLeaf = true := by
  obtain ⟨calls, -⟩ := calls
  cases calls <;> first | rfl | cases leaf

/-- Every step on the way to one that goes on goes on as well. -/
theorem ReachesWithin.goesOn (reaches : context.ReachesWithin earlier later)
    (goesOn : later.place.isLeaf = false) : earlier.place.isLeaf = false := by
  induction reaches using Relation.ReflTransGen.head_induction_on with
  | refl => exact goesOn
  | head calls _ ih =>
      by_contra leaf
      simp [calls.isLeaf (by simpa using leaf)] at ih

theorem ReachesWithin.extends_after (reaches : context.ReachesWithin earlier later)
    (goesOn : later.place.isLeaf = false) :
    (context.after earlier).workspace.terms.Extends (context.after later).workspace.terms := by
  induction reaches using Relation.ReflTransGen.head_induction_on with
  | refl => exact .refl _
  | head calls reaches ih => exact (calls.extends_after (ReachesWithin.goesOn reaches goesOn)).trans ih

/-- What a whole run preserves. -/
theorem ReachesWithin.sound (computes : context.functions.Computes frame.meaning)
    (reaches : context.ReachesWithin earlier later) (goesOn : later.place.isLeaf = false)
    (sound : earlier.Sound frame context.strategy)
    (room : (context.after earlier).workspace.terms.HasRoom) :
    later.Sound frame context.strategy := by
  induction reaches using Relation.ReflTransGen.head_induction_on with
  | refl => exact sound
  | head calls reaches ih =>
      have goesOnNext := ReachesWithin.goesOn reaches goesOn
      have roomNext := (calls.extends_after goesOnNext).hasRoom room
      exact ih (calls.sound computes sound ((TaskContext.extends_after goesOnNext).hasRoom roomNext))
        roomNext

theorem Reports.extends_after {plan : RulePlan} {state later : TaskState} {tuple : Tuple}
    (evaluated : TaskM.ofBindM (PlanTerm.evalList context.functions plan.head) state =
      .ok tuple later) :
    (context.after ⟨.body plan [], state⟩).workspace.terms.Extends later.workspace.terms := by
  rw [after_of_evaluated evaluated]
  exact leftBy_of_leaves (context.interns_record plan.headSymbol tuple later)

theorem Reports.denotes (computes : context.functions.Computes frame.meaning) {moment : Moment}
    {symbol : RelationSymbol} {tuple : Tuple} (reports : context.Reports moment symbol tuple)
    (sound : moment.Sound frame context.strategy)
    (room : (context.after moment).workspace.terms.HasRoom) :
    ∃ values, (context.after moment).workspace.terms.DenotesAll tuple values ∧
      (symbol, values) ∈ frame.goal := by
  obtain @⟨plan, state, later, tuple, evaluated⟩ := reports
  obtain ⟨position, bodyEq, resuming⟩ := sound
  rw [resuming.sound.fits.drop_eq_nil bodyEq] at resuming
  have grown := Reports.extends_after evaluated
  obtain ⟨-, -, values, denotes, inGoal, -⟩ := (head_leaves computes resuming.ready resuming.sound
    resuming.leads).of_ok evaluated (grown.hasRoom room)
  exact ⟨values, denotes.mono grown, inGoal⟩

/-- Whatever a sound task reports denotes a fact of the goal. -/
theorem denotes_of_reportsIn (computes : context.functions.Computes frame.meaning) {task : Task}
    {workspace : Workspace} (fits : workspace.Fits frame context.strategy)
    (triggered : ∀ plan ∈ context.strategy.triggered,
      plan.Sound frame context.strategy workspace)
    (sound : task.Sound frame context.strategy workspace)
    (room : (context.run task workspace).state.terms.HasRoom) {symbol : RelationSymbol}
    {tuple : Tuple} (reports : context.ReportsIn task workspace symbol tuple) :
    ∃ values, (context.run task workspace).state.terms.DenotesAll tuple values ∧
      (symbol, values) ∈ frame.goal := by
  rw [← after_start] at room ⊢
  obtain ⟨moment, reaches, reports⟩ := reports
  have goesOn : moment.place.isLeaf = false := by
    obtain ⟨-⟩ := reports
    rfl
  have grown := reaches.extends_after goesOn
  have soundMoment := reaches.sound computes goesOn (⟨.start fits triggered, sound⟩ :
    (start task workspace).Sound frame context.strategy) room
  obtain ⟨values, denotes, inGoal⟩ := reports.denotes computes soundMoment (grown.hasRoom room)
  exact ⟨values, denotes.mono grown, inGoal⟩

end TaskContext

end Datalog
