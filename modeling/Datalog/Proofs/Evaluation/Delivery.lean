import Datalog.Proofs.Evaluation.Reports

/-!
# Delivery

A sound task that ends has reported what it promised, or has left it to the tasks that it has spawned.
When all tasks of a pool have ended without a failure, the facts that were promised at the start have
been reported.
-/

namespace Datalog

variable {frame : Frame} {context : TaskContext} {plan : RulePlan} {rest : List BodyLiteral}
  {literals : List PlanLiteral} {state later : TaskState} {fact : GroundFact}
  {assignment : Assignment}

theorem TaskM.undoing_eq_ok {step : TaskM Unit} (ended : TaskM.undoing step state = .ok () later) :
    ∃ last, step state = .ok () last ∧ last.workspace = later.workspace := by
  obtain ⟨_, _, got, ended⟩ := bind_eq_ok.mp ended
  obtain ⟨rfl, rfl⟩ := EStateM.Result.ok.inj got
  obtain ⟨⟨⟩, last, stepped, undone⟩ := bind_eq_ok.mp ended
  obtain rfl := (EStateM.Result.ok.inj undone).2
  exact ⟨last, stepped, rfl⟩

/-- Where a check is sure to succeed, what is behind it is run. -/
theorem Checks.exists_passed {strategy : Strategy} {check : TaskM Bool} {step : TaskM Unit}
    {necessary sufficient : Assignment → Prop}
    (checks : Checks frame plan rest state check necessary sufficient)
    (ready : state.Ready frame strategy) (sound : plan.Sound frame strategy state.workspace)
    (interns : Interns step) (ended : (do if ← check then step) state = .ok () later)
    (room : later.workspace.terms.HasRoom)
    (agrees : state.bindings.Agrees (frame.names plan) assignment) (holds : sufficient assignment) :
    ∃ middle, check state = .ok true middle ∧ step middle = .ok () later ∧
      Resuming frame strategy plan rest middle ∧
        middle.bindings.Agrees (frame.names plan) assignment := by
  obtain ⟨success, middle, checked, stepped⟩ := bind_eq_ok.mp ended
  have interns' : Interns (if success then step else pure ()) := .ite interns .pure
  obtain ⟨bindings, rfl, matched⟩ :=
    checks.leaves.of_ok checked (((interns' middle).of_ok stepped).hasRoom room)
  obtain ⟨rfl, laterAgrees⟩ := matched.complete assignment agrees holds
  exact ⟨_, checked, stepped, matched.resuming checks ready sound, laterAgrees⟩

namespace TaskContext

/-- A fact is reported from a moment on: a tuple that denotes it once the step has ended. -/
def Delivers (context : TaskContext) (moment : Moment) (fact : GroundFact) : Prop :=
  ∃ last tuple, context.ReachesWithin moment last ∧ context.Reports last fact.1 tuple ∧
    (context.after moment).workspace.terms.DenotesAll tuple fact.2

/-- What is reported by a step that is called is reported by the step that calls it. -/
theorem Delivers.of_calls {earlier later : Moment} (delivers : context.Delivers later fact)
    (calls : context.Calls earlier later) (within : later.place.isTask = false)
    (goesOn : later.place.isLeaf = false) : context.Delivers earlier fact := by
  obtain ⟨last, tuple, reaches, reports, denotes⟩ := delivers
  have callsWithin : context.CallsWithin earlier later := ⟨calls, within⟩
  exact ⟨last, tuple, .head callsWithin reaches, reports,
    denotes.mono (callsWithin.extends_after goesOn)⟩

/-- What remains of a body reports what it concludes whenever it ends. -/
def BodyDelivers (frame : Frame) (context : TaskContext) (plan : RulePlan)
    (rest : List BodyLiteral) (literals : List PlanLiteral) : Prop :=
  ∀ {state later : TaskState}, context.evalBody plan literals state = .ok () later →
    later.workspace.terms.HasRoom → Resuming frame context.strategy plan rest state →
      ∀ {assignment fact}, state.bindings.Agrees (frame.names plan) assignment →
        plan.Concludes frame rest assignment fact →
          context.Delivers ⟨.body plan literals, state⟩ fact

/-- At the end of a body the fact that is concluded is reported. -/
theorem bodyDelivers_nil (computes : context.functions.Computes frame.meaning) :
    BodyDelivers frame context plan [] [] := by
  intro state later ended room resuming assignment fact agrees concludes
  obtain ⟨tuple, middle, evaluated, recorded⟩ := bind_eq_ok.mp ended
  have grown := (context.interns_record plan.headSymbol tuple middle).of_ok recorded
  obtain ⟨-, -, values, denotes, -, concluded⟩ := (head_leaves computes resuming.ready
    resuming.sound resuming.leads).of_ok evaluated (grown.hasRoom room)
  obtain rfl := concluded assignment fact agrees concludes
  exact ⟨_, tuple, .refl, .head evaluated, denotes.mono (Reports.extends_after evaluated)⟩

/-- A literal that is sure to hold lets the task go on with the rest. -/
theorem delivers_filter (computes : context.functions.Computes frame.meaning)
    {planned : PlanLiteral} {literal : BodyLiteral} (filters : planned.isScan = false)
    (fits : planned.Fits (context.strategy.growing frame.symbols)
      (state.workspace.referents context.strategy) (frame.names plan) plan.source.varCount literal)
    (delivers : BodyDelivers frame context plan rest literals)
    (ended : context.evalBody plan (planned :: literals) state = .ok () later)
    (room : later.workspace.terms.HasRoom)
    (resuming : Resuming frame context.strategy plan (literal :: rest) state)
    (agrees : state.bindings.Agrees (frame.names plan) assignment)
    (concludes : plan.Concludes frame (literal :: rest) assignment fact) :
    context.Delivers ⟨.body plan (planned :: literals), state⟩ fact := by
  rw [evalBody_filter filters] at ended
  obtain ⟨last, ended, same⟩ := TaskM.undoing_eq_ok ended
  have checks := checks_filter computes resuming fits
  obtain ⟨holds, holdsRest⟩ := List.forall_mem_cons.mp concludes.1
  obtain ⟨middle, checked, stepped, resumingRest, agreesRest⟩ := checks.exists_passed
    resuming.ready resuming.sound (context.interns_evalBody plan literals) ended (same ▸ room) agrees
      holds
  exact (delivers stepped (same ▸ room) resumingRest agreesRest ⟨holdsRest, concludes.2⟩).of_calls
    (.bodyRest filters checked) rfl rfl

/-! ## Scans -/

section Scan

variable {scan : ScanFrame} {position : Nat} {atom : Atom} {key : Key}
  (computes : context.functions.Computes frame.meaning)
  (restEq : scan.plan.body.drop position = scan.rest)
  (delivers : BodyDelivers frame context scan.plan (scan.plan.source.body.drop position) scan.rest)

include computes restEq delivers

/-- Among the tuples of a scan, one that the atom meets makes the rest report what it concludes. -/
theorem delivers_tuples (tuples : List Tuple)
    (scanning : Scanning frame context.strategy scan.plan scan.atom atom
      (scan.plan.source.body.drop position) key state)
    (found : scan.atom.Found context.strategy key state.workspace tuples)
    (ended : context.scanTuples scan.atom (context.continuation scan) tuples state = .ok () later)
    (room : later.workspace.terms.HasRoom) {tuple : Tuple} (member : tuple ∈ tuples)
    (agrees : state.bindings.Agrees (frame.names scan.plan) assignment)
    (meets : scan.atom.Meets frame.meaning state.workspace.terms atom.args assignment tuple)
    (concludes : scan.plan.Concludes frame (scan.plan.source.body.drop position) assignment fact) :
    context.Delivers ⟨.tuples scan tuples, state⟩ fact := by
  induction tuples generalizing state with
  | nil => simp at member
  | cons first tuples ih =>
      have internsBody : Interns (context.continuation scan) := context.interns_evalBody _ _
      obtain ⟨⟨⟩, middle, scanned, ended⟩ := bind_eq_ok.mp ended
      have roomMiddle :=
        ((context.interns_scanTuples scan.atom internsBody tuples middle).of_ok ended).hasRoom room
      obtain ⟨foundFirst, foundRest⟩ := List.forall_mem_cons.mp found
      rcases List.mem_cons.mp member with rfl | member
      · obtain ⟨last, stepped, same⟩ := TaskM.undoing_eq_ok scanned
        have checks := checks_columns computes scanning foundFirst.2 foundFirst.1
        obtain ⟨between, checked, stepped, resuming, agreesRest⟩ := checks.exists_passed
          scanning.ready scanning.sound internsBody stepped (same ▸ roomMiddle) agrees meets
        exact (delivers stepped (same ▸ roomMiddle) resuming agreesRest concludes).of_calls
          (.continuation checked) rfl rfl
      · have scannedFirst : context.scanTuples scan.atom (context.continuation scan) [first] state =
            .ok () middle := bind_of_ok scanned
        have advanced := scanning.advanced_of_scanTuples computes restEq
          (List.forall_mem_singleton.mpr foundFirst) scannedFirst roomMiddle
        exact (ih (scanning.advance advanced) (PlanAtom.Found.mono foundRest advanced.grows) ended
          member (agrees.mono advanced.grows.terms advanced.same)
          (meets.mono advanced.grows.terms)).of_calls (.nextTuples scannedFirst) rfl rfl

/-- An entry of the index that lies in a range is read in this chunk or in a later one. -/
theorem delivers_range (chunks : Nat) {keys : KeyRange} {index : Index} {entry : Entry}
    (scanning : Scanning frame context.strategy scan.plan scan.atom atom
      (scan.plan.source.body.drop position) key state)
    (indexEq : (context.strategy.source scan.atom.delta state.workspace).index? scan.atom.symbol
      scan.atom.index = some index)
    (confined : index.Confined key keys)
    (enough : keys.keysLeft index.pattern.keyColumns.length < chunks)
    (ended : context.scanRange scan.atom (context.continuation scan) chunks keys state =
      .ok () later)
    (room : later.workspace.terms.HasRoom) (member : entry ∈ index.entries)
    (inRange : keys.contains entry.key = true)
    (agrees : state.bindings.Agrees (frame.names scan.plan) assignment)
    (meets : scan.atom.Meets frame.meaning state.workspace.terms atom.args assignment entry.tuple)
    (concludes : scan.plan.Concludes frame (scan.plan.source.body.drop position) assignment fact) :
    context.Delivers ⟨.range scan chunks keys, state⟩ fact := by
  induction chunks generalizing state keys index with
  | zero => omega
  | succ chunks ih =>
      have internsBody : Interns (context.continuation scan) := context.interns_evalBody _ _
      have indexValid := (scanning.ready.fits.source_valid scan.atom.delta).index_valid indexEq
      cases chunkEq : index.readChunk keys with
      | mk tuples next =>
      have read : (context.indexFor scan.atom state.workspace).readChunk keys = (tuples, next) := by
        rw [indexFor_eq indexEq, chunkEq]
      have found := scanning.found_readChunk indexEq confined
      rw [chunkEq] at found
      rw [scanRange_of_readChunk read] at ended
      obtain ⟨⟨⟩, middle, scanned, ended⟩ := bind_eq_ok.mp ended
      have roomMiddle : middle.workspace.terms.HasRoom := by
        cases next with
        | none => exact (Interns.pure middle).of_ok ended |>.hasRoom room
        | some next =>
            exact ((context.interns_scanRange scan.atom internsBody chunks next middle).of_ok
              ended).hasRoom room
      -- The entry is read now or lies in what is left of the range.
      have split := Index.mem_readChunk_or_rest indexValid confined.1 member inRange
      rw [chunkEq] at split
      rcases split with inTuples | ⟨rest, nextEq, inRest⟩
      · have chunk : context.Calls ⟨.range scan (chunks + 1) keys, state⟩ ⟨.tuples scan tuples, state⟩ := by
          have calls : context.Calls ⟨.range scan (chunks + 1) keys, state⟩ _ := .chunk
          rwa [read] at calls
        exact (delivers_tuples computes restEq delivers tuples scanning found scanned roomMiddle
          inTuples agrees meets concludes).of_calls chunk rfl rfl
      · obtain rfl : next = some rest := nextEq
        have advanced := scanning.advanced_of_scanTuples computes restEq found scanned roomMiddle
        obtain ⟨index', indexEq', indexGrows, confined', fewer⟩ :=
          scanning.exists_rest indexEq confined (congrArg Prod.snd chunkEq) advanced
        have enough' : rest.keysLeft index'.pattern.keyColumns.length < chunks := by
          rw [indexGrows.pattern_eq]
          omega
        exact (ih (scanning.advance advanced) indexEq' confined' enough' ended
          (indexGrows.kept entry member) inRest (agrees.mono advanced.grows.terms advanced.same)
          (meets.mono advanced.grows.terms)).of_calls (.nextRange read scanned) rfl rfl

/-- A view holds a tuple that the atom meets. -/
theorem delivers_view {view : View} {index : Index}
    (scanning : Scanning frame context.strategy scan.plan scan.atom atom
      (scan.plan.source.body.drop position) key state)
    (indexEq : (context.strategy.source scan.atom.delta state.workspace).index? scan.atom.symbol
      scan.atom.index = some index)
    (isFrom : view.From index key)
    (ended : context.scanView scan.atom (context.continuation scan) view state = .ok () later)
    (room : later.workspace.terms.HasRoom) {tuple : Tuple}
    (length : tuple.length = scan.atom.pattern.length)
    (covers : view.Covers index (index.pattern.keyOf tuple))
    (agrees : state.bindings.Agrees (frame.names scan.plan) assignment)
    (meets : scan.atom.Meets frame.meaning state.workspace.terms atom.args assignment tuple)
    (concludes : scan.plan.Concludes frame (scan.plan.source.body.drop position) assignment fact) :
    context.Delivers ⟨.view scan view, state⟩ fact := by
  have patternEq := scanning.pattern_eq indexEq
  have sourceValid := scanning.ready.fits.source_valid scan.atom.delta
  cases view with
  | array tuples =>
      obtain ⟨other, member, keyEq⟩ := covers
      have found := scanning.found_array indexEq isFrom
      have otherLength : other.length = scan.atom.pattern.length := by
        rw [sourceValid.length_of_holds (found other member).2, scanning.atomFits.arity]
      exact (delivers_tuples computes restEq delivers tuples scanning found ended room member agrees
        (meets.of_keyOf_eq length otherLength (patternEq ▸ keyEq)) concludes).of_calls .array rfl rfl
  | range keys count =>
      obtain ⟨inRange, entry, member, keyEq⟩ := covers
      have indexValid := sourceValid.index_valid indexEq
      have entryLength : entry.tuple.length = scan.atom.pattern.length := by
        rw [indexValid.tuple_length entry member, scanning.atomFits.arity]
      have sameKey : scan.atom.pattern.keyOf entry.tuple = scan.atom.pattern.keyOf tuple := by
        rw [← patternEq, ← keyEq, indexValid.keyed entry member]
      have enough : keys.keysLeft index.pattern.keyColumns.length <
          keyCount scan.atom.pattern.keyColumns.length + 1 := by
        rw [patternEq]
        exact Nat.lt_succ_of_le (KeyRange.keysLeft_le scan.atom.pattern.keyColumns.length keys)
      exact (delivers_range computes restEq delivers _ scanning indexEq isFrom enough ended room
        member (keyEq ▸ inRange) agrees (meets.of_keyOf_eq length entryLength sameKey)
          concludes).of_calls .firstRange rfl rfl

end Scan

/-! ## Bodies -/

/-- Where a scanned atom is sure to hold, its lookup finds a match. -/
theorem delivers_scan (computes : context.functions.Computes frame.meaning) {position : Nat}
    {planned : PlanAtom} {atom : Atom} (restEq : plan.body.drop position = literals)
    (positive : atom.negated = false)
    (fits : planned.Fits (state.workspace.referents context.strategy) (frame.names plan)
      plan.source.varCount atom planned.delta)
    (delivers : BodyDelivers frame context plan (plan.source.body.drop position) literals)
    (ended : context.evalBody plan (.scan planned :: literals) state = .ok () later)
    (room : later.workspace.terms.HasRoom)
    (resuming : Resuming frame context.strategy plan
      ({ literal := .predicate atom, delta := planned.delta } :: plan.source.body.drop position) state)
    (agrees : state.bindings.Agrees (frame.names plan) assignment)
    (concludes : plan.Concludes frame
      ({ literal := .predicate atom, delta := planned.delta } :: plan.source.body.drop position)
        assignment fact) :
    context.Delivers ⟨.body plan (.scan planned :: literals), state⟩ fact := by
  obtain ⟨view, middle, found, ended⟩ := bind_eq_ok.mp ended
  have roomMiddle := ((context.interns_scanView planned (context.interns_evalBody plan literals) view
    middle).of_ok ended).hasRoom room
  obtain ⟨advanced, index, key, scanning, indexEq, isFrom, finds⟩ := (lookup_scanning computes
    resuming.ready resuming.sound fits positive resuming.leads).of_ok found roomMiddle
  obtain ⟨holds, holdsRest⟩ := List.forall_mem_cons.mp concludes.1
  obtain ⟨tuple, length, covers, meets⟩ := finds assignment agrees holds
  let scan : ScanFrame := ⟨middle.substitution, planned, plan, literals⟩
  have fromView : context.Delivers ⟨.view scan view, middle⟩ fact :=
    delivers_view computes restEq delivers scanning indexEq isFrom ended room length covers
      (agrees.mono advanced.grows.terms advanced.same) meets ⟨holdsRest, concludes.2⟩
  exact fromView.of_calls (.bodyScan found) rfl rfl

/-- What remains of a body reports what it concludes. -/
theorem bodyDelivers_evalBody (computes : context.functions.Computes frame.meaning)
    {position : Nat} (bodyEq : plan.body.drop position = literals) :
    BodyDelivers frame context plan (plan.source.body.drop position) literals := by
  induction literals generalizing position with
  | nil =>
      intro state later ended room resuming
      rw [resuming.sound.fits.drop_eq_nil bodyEq] at resuming ⊢
      exact bodyDelivers_nil computes ended room resuming
  | cons planned literals ih =>
      intro state later ended room resuming assignment fact agrees concludes
      obtain ⟨literal, sourceEq, restEq, fits⟩ := resuming.sound.fits.exists_drop_eq_cons bodyEq
      rw [sourceEq] at resuming concludes
      cases planned with
      | scan planned =>
          obtain ⟨atom, literalEq, positive, atomFits⟩ := fits
          obtain ⟨_, _⟩ := literal
          obtain rfl := literalEq
          obtain rfl := atomFits.delta_eq
          exact delivers_scan computes restEq positive atomFits (ih restEq) ended room resuming agrees
            concludes
      | _ => exact delivers_filter computes rfl fits (ih restEq) ended room resuming agrees concludes

/-! ## Tasks -/

/-- A task has reported a fact, or it leaves the fact to a task that it has spawned. -/
def Fulfils (frame : Frame) (context : TaskContext) (task : Task) (state later : TaskState)
    (fact : GroundFact) : Prop :=
  context.Delivers ⟨.task task, state⟩ fact ∨
    ∃ other ∈ later.spawned, other.Promises frame context.strategy later.workspace fact

theorem fulfils_evaluate (computes : context.functions.Computes frame.meaning)
    (ready : state.Ready frame context.strategy)
    (sound : plan.Sound frame context.strategy state.workspace)
    (ended : context.evaluate plan state = .ok () later) (room : later.workspace.terms.HasRoom)
    (promises : (Task.evaluate plan).Promises frame context.strategy state.workspace fact) :
    Fulfils frame context (.evaluate plan) state later fact := by
  cases first : plan.firstScan? with
  | none =>
      obtain ⟨assignment, concludes⟩ := RulePlan.exists_concludes promises
      rw [evaluate_of_noScan first] at ended
      have delivers : BodyDelivers frame context plan plan.source.body plan.body :=
        bodyDelivers_evalBody computes (List.drop_zero : plan.body.drop 0 = plan.body)
      exact .inl ((delivers ended room ⟨ready_unbound ready plan.slots, sound,
        sound.leads state.workspace.terms plan.slots⟩ (Bindings.agrees_unbound _ _ _)
          concludes).of_calls (.evaluateBody first) rfl rfl)
  | some position =>
      exact .inr (((evaluate_leaves_of_scan computes ready sound first).of_ok ended room).promised
        fact promises)

theorem fulfils_scan (computes : context.functions.Computes frame.meaning) {position : Nat}
    {substitution : Substitution} {view : View} (ready : state.Ready frame context.strategy)
    (sound : (Task.scan plan position substitution view).Sound frame context.strategy
      state.workspace)
    (ended : context.scan plan position substitution view state = .ok () later)
    (room : later.workspace.terms.HasRoom)
    (promises : (Task.scan plan position substitution view).Promises frame context.strategy
      state.workspace fact) :
    Fulfils frame context (.scan plan position substitution view) state later fact := by
  obtain ⟨planned, atPosition⟩ : ∃ planned, plan.body[position]? = some (.scan planned) := by
    obtain ⟨_, planned, _, _, _, _, atPosition, -⟩ := promises
    exact ⟨planned, atPosition⟩
  obtain ⟨atom, index, key, atSource, scanning, indexEq, isFrom⟩ :=
    scanning_of_sound ready sound atPosition
  have scanEq := (bind_of_ok (scannedAtom_eq_ok atPosition state)).symm.trans ended
  obtain ⟨parts, middle, split, ended⟩ := bind_eq_ok.mp scanEq
  have roomMiddle := ((context.interns_scanParts plan position substitution planned view parts
    middle).of_ok ended).hasRoom room
  obtain ⟨⟨draws, rfl⟩, partsEq⟩ := (partsOf_leaves indexEq).of_ok split roomMiddle
  have drawn := advanced_withDraws ready draws
  have sameSource := source_withDraws context.strategy planned.delta state.workspace draws
  have indexEq' := index?_withDraws indexEq draws
  cases parts with
  | none =>
      have scanning' := scanning.advance (advanced_withDraws scanning.ready draws)
      have delivers : BodyDelivers frame context plan (plan.source.body.drop (position + 1))
          (plan.body.drop (position + 1)) := bodyDelivers_evalBody computes rfl
      obtain ⟨assignment, tuple, agrees, concludes, length, meets, covers⟩ :=
        (promises_scan_iff atPosition atSource indexEq).mp promises
      let scan : ScanFrame := ⟨substitution, planned, plan, plan.body.drop (position + 1)⟩
      have fromView : context.Delivers ⟨.view scan view, _⟩ fact :=
        delivers_view computes rfl delivers scanning' indexEq' isFrom ended room
          (length.trans scanning.atomFits.arity.symm) covers agrees meets concludes
      exact .inl (fromView.of_calls (.scan atPosition split) rfl rfl)
  | some parts =>
      obtain ⟨left, right⟩ := parts
      obtain ⟨draws', splitEq⟩ := partsEq left right rfl
      rw [← sameSource] at splitEq
      exact .inr (((scanParts_leaves_of_split drawn.ready (sound.mono drawn.grows) atPosition
        indexEq' splitEq).of_ok ended room).promised fact (promises.mono drawn.grows))

theorem fulfils_trigger (computes : context.functions.Computes frame.meaning) {tuple : Tuple}
    (ready : state.Ready frame context.strategy)
    (sound : (Task.trigger plan tuple).Sound frame context.strategy state.workspace)
    (ended : context.trigger plan tuple state = .ok () later)
    (room : later.workspace.terms.HasRoom)
    (promises : (Task.trigger plan tuple).Promises frame context.strategy state.workspace fact) :
    Fulfils frame context (.trigger plan tuple) state later fact := by
  obtain ⟨planSound, holds⟩ := sound
  obtain ⟨assignment, position, atom, values, deltaEq, atSource, concludes, valuesEq, denotes⟩ :=
    promises
  unfold trigger at ended
  rw [deltaEq] at ended
  obtain ⟨⟨⟩, started, start, ended⟩ := bind_eq_ok.mp ended
  obtain ⟨-, rfl⟩ := EStateM.Result.ok.inj start
  obtain ⟨success, middle, filtered, ended⟩ := bind_eq_ok.mp ended
  have grown : later.workspace.terms.Extends middle.workspace.terms :=
    (context.interns_triggered plan position tuple success middle).of_ok ended
  obtain ⟨bindings, rfl, prefixed⟩ :=
    (filterPrefix_leaves computes ready planSound position).of_ok filtered (grown.hasRoom room)
  obtain ⟨rfl, agrees⟩ := prefixed.passes concludes
  obtain ⟨planned, between, scanned, ended⟩ := bind_eq_ok.mp ended
  obtain ⟨rfl, atPosition⟩ := (scannedAtom_leaves plan position _).of_ok scanned
    (((context.interns_matched plan position tuple planned between).of_ok ended).hasRoom room)
  obtain ⟨atom', atSource', atomFits, positive, found, resuming⟩ :=
    prefixed.exists_delta planSound holds deltaEq atPosition
  obtain rfl : atom' = atom := by simpa [atSource'] using atSource
  have checks := checks_tuple computes resuming atomFits positive found
  obtain ⟨last, checked, stepped, resumingRest, agreesRest⟩ := checks.exists_passed resuming.ready
    resuming.sound (context.interns_evalBody plan _) ended room agrees
      ⟨values, denotes.mono prefixed.grows.terms, valuesEq⟩
  have delivers : BodyDelivers frame context plan (plan.source.body.drop (position + 1))
      (plan.body.drop (position + 1)) := bodyDelivers_evalBody computes rfl
  exact .inl ((delivers stepped room resumingRest agreesRest
    ⟨fun literal member => concludes.1 literal (List.mem_of_mem_drop member), concludes.2⟩).of_calls
      (.triggerBody deltaEq filtered atPosition checked) rfl rfl)

theorem fulfils_steps (computes : context.functions.Computes frame.meaning) {task : Task}
    (ready : state.Ready frame context.strategy)
    (sound : task.Sound frame context.strategy state.workspace)
    (ended : context.steps task state = .ok () later) (room : later.workspace.terms.HasRoom)
    (promises : task.Promises frame context.strategy state.workspace fact) :
    Fulfils frame context task state later fact := by
  cases task with
  | load symbol facts => exact sound.elim
  | evaluate plan => exact fulfils_evaluate computes ready sound ended room promises
  | scan plan position substitution view =>
      exact fulfils_scan computes ready sound ended room promises
  | trigger plan tuple => exact fulfils_trigger computes ready sound ended room promises

variable {task : Task} {workspace : Workspace}

/-- A sound task that ends has reported what it promised, or left it to others. -/
theorem reportsIn_or_spawns (computes : context.functions.Computes frame.meaning)
    (fits : workspace.Fits frame context.strategy)
    (triggered : ∀ plan ∈ context.strategy.triggered, plan.Sound frame context.strategy workspace)
    (sound : task.Sound frame context.strategy workspace)
    (ended : (context.run task workspace).outcome = .ok ())
    (room : (context.run task workspace).state.terms.HasRoom)
    (promises : task.Promises frame context.strategy workspace fact) :
    (∃ tuple, context.ReportsIn task workspace fact.1 tuple ∧
        (context.run task workspace).state.terms.DenotesAll tuple fact.2) ∨
      ∃ other ∈ (context.run task workspace).spawned,
        other.Promises frame context.strategy (context.run task workspace).state fact := by
  have ready := TaskState.Ready.start fits triggered
  have endsAs : (context.after (start task workspace)).workspace =
      (context.run task workspace).state := after_start
  unfold run at ended room endsAs ⊢
  cases outcome : context.steps task { workspace, substitution := .unbound 0 } with
  | error error later => simp [outcome] at ended
  | ok value later =>
      rw [outcome] at room endsAs
      refine (fulfils_steps computes ready sound outcome room promises).imp ?_ id
      rintro ⟨last, tuple, reaches, reports, denotes⟩
      exact ⟨tuple, ⟨last, reaches, reports⟩, endsAs ▸ denotes⟩

/-! ## Pools -/

/-- While a pool is drained, a tuple is reported by one of the tasks. -/
def Reported (context : TaskContext) (order : Nat → Nat) (pool : Pool Task TaskError)
    (workspace : Workspace) (symbol : RelationSymbol) (tuple : Tuple) : Prop :=
  ∃ task between, Pool.Takes context.run order pool workspace task between ∧
    context.ReportsIn task between symbol tuple

variable {order : Nat → Nat} {fuel : Nat} {pool final : Pool Task TaskError}
  {begun last : Workspace} {target : Model}

/-- Whatever sound tasks report denotes a fact of the goal. -/
theorem Reported.denotes (computes : context.functions.Computes frame.meaning)
    (underWay : UnderWay frame context.strategy begun target pool workspace)
    (drained : pool.drain context.run order fuel workspace = some (final, last))
    (room : last.terms.HasRoom) {symbol : RelationSymbol} {tuple : Tuple}
    (reported : context.Reported order pool workspace symbol tuple) :
    ∃ values, last.terms.DenotesAll tuple values ∧ (symbol, values) ∈ frame.goal := by
  obtain ⟨task, between, takes, reports⟩ := reported
  obtain ⟨before, after, fuel', underWay, stepped, drained⟩ := takes.exists_run
    (motive := fun pool state => state.terms.HasRoom →
      UnderWay frame context.strategy begun target pool state)
    (fun stepped before room => (before ((context.extends_run _ _).hasRoom
      (stepped.state_eq ▸ room))).step computes stepped room)
    drained fun _ => underWay
  have grown := extends_drain drained
  have roomAfter := grown.hasRoom room
  have here := underWay ((context.extends_run task between).hasRoom roomAfter)
  obtain ⟨values, denotes, inGoal⟩ := denotes_of_reportsIn computes here.fits here.triggered
    (here.sound task stepped.taken) roomAfter reports
  exact ⟨values, denotes.mono grown, inGoal⟩

/-- What a waiting task promises is reported before the pool is drained, unless a task fails. -/
theorem exists_reported (computes : context.functions.Computes frame.meaning)
    (underWay : UnderWay frame context.strategy begun target pool workspace)
    (drained : pool.drain context.run order fuel workspace = some (final, last))
    (noFailure : final.failures = []) (room : last.terms.HasRoom) (waiting : task ∈ pool.queue)
    (promises : task.Promises frame context.strategy workspace fact) :
    ∃ tuple, context.Reported order pool workspace fact.1 tuple ∧
      last.terms.DenotesAll tuple fact.2 := by
  induction fuel generalizing pool workspace task begun target with
  | zero =>
      have empty := Pool.queue_eq_nil_of_drain drained
      simp only [Pool.drain] at drained
      split at drained
      · next empty => simp [List.isEmpty_iff.mp empty] at waiting
      · cases drained
  | succ fuel ih =>
      unfold Pool.drain at drained
      cases stepEq : pool.step context.run order workspace with
      | none => simp [Pool.queue_eq_nil_of_step stepEq] at waiting
      | some result =>
          obtain ⟨later, middle⟩ := result
          rw [stepEq] at drained
          obtain ⟨taken, started, takeEq, -, stepped⟩ := Pool.exists_taken stepEq
          obtain rfl := stepped.state_eq
          have grown := extends_drain drained
          have roomMiddle := grown.hasRoom room
          have underWayLater := underWay.here.step computes stepped roomMiddle
          -- What is reported from the next moment on is reported from this one on.
          have reportedLater : ∀ other ∈ later.queue,
              other.Promises frame context.strategy (context.run taken workspace).state fact →
                ∃ tuple, context.Reported order pool workspace fact.1 tuple ∧
                  last.terms.DenotesAll tuple fact.2 := by
            intro other waits promised
            obtain ⟨tuple, ⟨task, between, takes, reports⟩, denotes⟩ :=
              ih underWayLater drained waits promised
            exact ⟨tuple, ⟨task, between, .later stepEq takes, reports⟩, denotes⟩
          obtain ⟨ended, -⟩ := stepped.ended (Pool.failures_eq_nil_of_drain drained noFailure)
          rcases stepped.before task waiting with rfl | left
          · rcases reportsIn_or_spawns computes underWay.fits underWay.triggered
              (underWay.sound task stepped.taken) ended roomMiddle promises with
              ⟨tuple, reports, denotes⟩ | ⟨other, spawned, promised⟩
            · exact ⟨tuple, ⟨task, workspace, .now takeEq, reports⟩, denotes.mono grown⟩
            · exact reportedLater other (stepped.spawned other spawned) promised
          · exact reportedLater task left (promises.mono underWayLater.grows)

/-- The tuples that are reported while a pool is drained denote the facts of a model. -/
structure ReportsExactly (context : TaskContext) (order : Nat → Nat) (pool : Pool Task TaskError)
    (workspace : Workspace) (terms : TermStore) (model : Model) : Prop where
  within : ∀ symbol tuple, context.Reported order pool workspace symbol tuple →
    ∃ values, terms.DenotesAll tuple values ∧ (symbol, values) ∈ model
  includes : ∀ fact ∈ model, ∃ tuple, context.Reported order pool workspace fact.1 tuple ∧
    terms.DenotesAll tuple fact.2

/-- Sound tasks that promise the goal report exactly the goal. -/
theorem reportsExactly_of_drain (computes : context.functions.Computes frame.meaning)
    {tasks : List Task} (fits : workspace.Fits frame context.strategy)
    (triggered : ∀ plan ∈ context.strategy.triggered, plan.Sound frame context.strategy workspace)
    (sound : ∀ task ∈ tasks, task.Sound frame context.strategy workspace)
    (promised : ∀ fact ∈ frame.goal,
      ∃ task ∈ tasks, task.Promises frame context.strategy workspace fact)
    (drained : (({} : Pool Task TaskError).submitAll tasks).drain context.run order fuel workspace =
      some (final, last))
    (noFailure : final.failures = []) (room : last.terms.HasRoom) :
    context.ReportsExactly order (({} : Pool Task TaskError).submitAll tasks) workspace last.terms
      frame.goal := by
  have underWay : UnderWay frame context.strategy workspace frame.goal
      (({} : Pool Task TaskError).submitAll tasks) workspace :=
    underWay_start rfl fits triggered sound promised
  refine ⟨fun symbol tuple reported => reported.denotes computes underWay drained room,
    fun fact member => ?_⟩
  obtain ⟨task, inTasks, promises⟩ := promised fact member
  have waiting : task ∈ (({} : Pool Task TaskError).submitAll tasks).queue := by
    rw [Pool.queue_submitAll]
    exact List.mem_append_right _ inTasks
  exact exists_reported computes underWay drained noFailure room waiting promises

end TaskContext

end Datalog
