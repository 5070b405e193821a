import Datalog.Proofs.Evaluation.Columns

/-!
# Lookups and filters

A lookup returns a view of the tuples whose bound columns have the values of the atom's bound
arguments.  A filter finds out whether its literal holds: if it lets the task go on, the literal may
hold in what is possible, and it does let it go on if the literal is sure to hold.
-/

namespace Datalog

variable {functions : Registry} {names : List String} {frame : Frame} {context : TaskContext}

namespace TaskState

/-- The terms and the slot values of a running task. -/
def bindings (state : TaskState) : Bindings where
  terms := state.workspace.terms
  substitution := state.substitution

def withBindings (state : TaskState) (bindings : Bindings) : TaskState :=
  { state with
    workspace := { state.workspace with terms := bindings.terms }
    substitution := bindings.substitution }

/-- A task that has stopped while it evaluated terms: it may have interned some and bound slots. -/
def Interrupted (state later : TaskState) : Prop :=
  ∃ bindings : Bindings, later = state.withBindings bindings ∧ bindings.terms.Distinct ∧
    bindings.terms.Extends state.workspace.terms

theorem Interrupted.after {state last : TaskState} {bindings : Bindings}
    (interrupted : (state.withBindings bindings).Interrupted last)
    (grown : bindings.terms.Extends state.workspace.terms) : state.Interrupted last := by
  obtain ⟨later, rfl, distinct, grown'⟩ := interrupted
  exact ⟨later, rfl, distinct, grown'.trans grown⟩

theorem interrupted_self {state : TaskState} (distinct : state.workspace.terms.Distinct) :
    state.Interrupted state :=
  ⟨state.bindings, rfl, distinct, .refl _⟩

end TaskState

theorem TaskM.leaves_ofBindM {α : Type} {computation : BindM α} {state : TaskState}
    {done : α → Bindings → Prop} {stopped : TaskError → Bindings → Prop}
    (leaves : Leaves computation state.bindings done stopped) :
    Leaves (TaskM.ofBindM computation) state
      (fun value later => ∃ bindings, later = state.withBindings bindings ∧ done value bindings)
      fun error later => ∃ bindings, later = state.withBindings bindings ∧ stopped error bindings := by
  unfold Leaves TaskState.bindings at leaves
  unfold Leaves TaskM.ofBindM
  cases outcome : computation ⟨state.workspace.terms, state.substitution⟩ with
  | ok value bindings =>
      rw [outcome] at leaves
      exact ⟨bindings, rfl, leaves⟩
  | error error bindings =>
      rw [outcome] at leaves
      exact ⟨bindings, rfl, leaves⟩

theorem TaskM.ofBindM_leaves {α : Type} {computation : BindM α} {state : TaskState}
    {done : α → Bindings → Prop} {stopped : TaskError → Bindings → Prop}
    (leaves : LeavesWithRoom computation state.bindings done stopped) :
    LeavesWithRoom (TaskM.ofBindM computation) state
      (fun value later => ∃ bindings, later = state.withBindings bindings ∧ done value bindings)
      fun error later => ∃ bindings, later = state.withBindings bindings ∧ stopped error bindings := by
  refine (TaskM.leaves_ofBindM leaves).mono ?_ ?_
  · rintro value _ ⟨bindings, rfl, isDone⟩ room
    exact ⟨bindings, rfl, isDone room⟩
  · rintro error _ ⟨bindings, rfl, isStopped⟩ room
    exact ⟨bindings, rfl, isStopped room⟩

/-- A task evaluates terms, and the terms that it has interned are distinct even if it stops. -/
theorem TaskM.evaluating_leaves {α : Type} {computation : BindM α} {state : TaskState}
    {done : α → Bindings → Prop} (interns : Interns computation)
    (leaves : LeavesWithRoom computation state.bindings done fun _ later => later.terms.Distinct) :
    LeavesWithRoom (TaskM.ofBindM computation) state
      (fun value later => ∃ bindings, later = state.withBindings bindings ∧ done value bindings)
      fun _ later => state.Interrupted later := by
  refine (TaskM.ofBindM_leaves (leaves.grown interns)).mono ?_ ?_
  · rintro value _ ⟨bindings, rfl, isDone, -⟩
    exact ⟨bindings, rfl, isDone⟩
  · rintro error _ ⟨bindings, rfl, distinct, grown⟩
    exact ⟨bindings, rfl, distinct, grown⟩

/-! ## Lookups -/

theorem PlanAtom.boundArgs_eq (planned : PlanAtom) :
    planned.boundArgs = planned.pattern.keepBound planned.args :=
  Pattern.zip_filterMap_eq_keepBound planned.pattern planned.args

/-- A key denotes the values of the bound arguments of an atom. -/
def Bindings.KeyOf (meaning : Interpretation) (names : List String) (bindings : Bindings)
    (pattern : Pattern) (args : List Term) (key : Key) : Prop :=
  ∀ assignment, bindings.Agrees names assignment →
    ∃ values, Term.evalList meaning assignment (pattern.keepBound args) = some values ∧
      bindings.terms.DenotesAll key values

theorem Bindings.KeyOf.mono {meaning : Interpretation} {bindings later : Bindings}
    {pattern : Pattern} {args : List Term} {key : Key}
    (keyOf : bindings.KeyOf meaning names pattern args key) (grounded : bindings.Grounded)
    (extended : later.Extends bindings) : later.KeyOf meaning names pattern args key := by
  intro assignment agrees
  obtain ⟨values, valuesEq, denotes⟩ := keyOf assignment (extended.agrees grounded agrees)
  exact ⟨values, valuesEq, denotes.mono extended.terms⟩

theorem Bindings.KeyOf.fitsFront {meaning : Interpretation} {bindings : Bindings}
    {pattern : Pattern} {args : List Term} {key : Key} {symbol : RelationSymbol}
    (keyOf : bindings.KeyOf meaning names pattern args key) (grounded : bindings.Grounded)
    (distinctNames : names.Nodup) (length : args.length = pattern.length)
    (arity : pattern.length = symbol.arity) : FactStore.FitsFront symbol pattern key := by
  intro tuple tupleLength
  obtain ⟨assignment, agrees⟩ := grounded.exists_agrees distinctNames
  obtain ⟨values, valuesEq, denotes⟩ := keyOf assignment agrees
  rw [denotes.length_eq, Term.evalList_length valuesEq]
  exact Pattern.length_keep length (tupleLength.trans arity.symm)

/-- A tuple whose values are those of the bound arguments has the key in its bound columns. -/
theorem Bindings.KeyOf.keepBound_eq {meaning : Interpretation} {bindings : Bindings}
    {pattern : Pattern} {args : List Term} {key : Key} {assignment : Assignment} {tuple : Tuple}
    {values : List Value} (keyOf : bindings.KeyOf meaning names pattern args key)
    (distinct : bindings.terms.Distinct) (agrees : bindings.Agrees names assignment)
    (boundEq : Term.evalList meaning assignment (pattern.keepBound args) =
      some (pattern.keepBound values))
    (denotes : bindings.terms.DenotesAll tuple values) : pattern.keepBound tuple = key := by
  obtain ⟨keyValues, keyValuesEq, keyDenotes⟩ := keyOf assignment agrees
  rw [boundEq, Option.some.injEq] at keyValuesEq
  have boundDenotes : bindings.terms.DenotesAll (pattern.keepBound tuple) keyValues :=
    keyValuesEq ▸ denotes.keep _ _
  exact boundDenotes.injective distinct keyDenotes

/-- The bound arguments have the values of a tuple with the key in its bound columns. -/
theorem Bindings.KeyOf.evalList_keepBound {meaning : Interpretation} {bindings : Bindings}
    {pattern : Pattern} {args : List Term} {key : Key} {assignment : Assignment} {tuple : Tuple}
    {values : List Value} (keyOf : bindings.KeyOf meaning names pattern args key)
    (agrees : bindings.Agrees names assignment) (bound : pattern.keepBound tuple = key)
    (denotes : bindings.terms.DenotesAll tuple values) :
    Term.evalList meaning assignment (pattern.keepBound args) = some (pattern.keepBound values) := by
  obtain ⟨keyValues, keyValuesEq, keyDenotes⟩ := keyOf assignment agrees
  have boundDenotes : bindings.terms.DenotesAll key (pattern.keepBound values) :=
    bound ▸ denotes.keep _ _
  rw [keyValuesEq, keyDenotes.unique boundDenotes]

theorem TaskContext.lookup_leaves (computes : context.functions.Computes frame.meaning)
    (distinctNames : names.Nodup) {state : TaskState} {count : String → Nat} {planned : PlanAtom}
    {atom : Atom} {delta : Bool} (distinct : state.workspace.terms.Distinct)
    (grounded : state.bindings.Grounded)
    (fits : planned.Fits (state.workspace.referents context.strategy) names count atom delta) :
    LeavesWithRoom (context.lookup planned) state
      (fun view later => ∃ bindings key, bindings.Settled state.bindings ∧
        later = state.withBindings bindings ∧
          view = (context.strategy.source delta state.workspace).get planned.symbol planned.index key ∧
            bindings.KeyOf frame.meaning names planned.pattern atom.args key)
      fun _ later => state.Interrupted later := by
  unfold lookup
  rw [planned.boundArgs_eq]
  have evaluated := PlanTerm.evalList_leaves computes distinctNames
    (planned.pattern.keepBound planned.args) distinct grounded (fits.args.keep _ planned.pattern)
  refine .bind (TaskM.evaluating_leaves (PlanTerm.interns_evalList _ _) evaluated)
    (fun key => .get_bind fun _ => .pure) ?_
  rintro key later ⟨bindings, rfl, settled, keyEq⟩
  refine .get_bind (.pure ⟨bindings, key, settled, rfl, ?_, ?_⟩)
  · have same : context.storeFor planned (state.withBindings bindings).workspace =
        context.strategy.source delta state.workspace := by
      rw [storeFor_eq, fits.delta_eq]
      cases context.strategy <;> rfl
    rw [same]
  · intro assignment agrees
    exact keyEq assignment (settled.extends.agrees grounded agrees)

/-! ## Filters -/

theorem Bindings.Settled.andThen {bindings middle later : Bindings} {success : Bool}
    {necessary sufficient : Assignment → Prop} (settled : middle.Settled bindings)
    (matched : Bindings.Matched names middle later success necessary sufficient) :
    Bindings.Matched names bindings later success necessary sufficient where
  distinct := matched.distinct
  grounded := matched.grounded
  extended := matched.extended.trans settled.extends
  sound := matched.sound
  complete assignment agrees holds :=
    matched.complete assignment (agrees.mono settled.grown settled.same) holds

/-- An equation holds exactly if its pattern matches the value of its other side. -/
theorem unify_leaves {meaning : Interpretation} (computes : functions.Computes meaning)
    (distinctNames : names.Nodup) {bindings : Bindings} (distinct : bindings.terms.Distinct)
    (grounded : bindings.Grounded) {source pattern : PlanTerm} {first second : Term}
    (representsSource : source.Represents bindings.terms names first)
    (representsPattern : pattern.Represents bindings.terms names second) :
    LeavesWithRoom
      (do
        let value ← source.eval functions
        pattern.matchValue functions value)
      bindings
      (fun success later => Bindings.Matched names bindings later success
        (fun assignment => ∃ value, first.eval meaning assignment = some value ∧
          second.eval meaning assignment = some value)
        (fun assignment => ∃ value, first.eval meaning assignment = some value ∧
          second.eval meaning assignment = some value))
      fun _ later => later.terms.Distinct := by
  have evaluated := PlanTerm.eval_leaves computes distinctNames source distinct grounded
    representsSource
  refine .bind evaluated (fun id => PlanTerm.interns_matchValue functions pattern id) ?_
  rintro id middle ⟨settled, sourceEq⟩
  obtain ⟨witness, witnessAgrees⟩ := grounded.exists_agrees distinctNames
  obtain ⟨value, -, denotes⟩ := sourceEq witness witnessAgrees
  have sameValue : ∀ assignment, bindings.Agrees names assignment →
      first.eval meaning assignment = some value := by
    intro assignment agrees
    obtain ⟨value', valueEq, denotes'⟩ := sourceEq assignment agrees
    rw [valueEq, denotes'.unique denotes]
  have matching := PlanTerm.matchValue_leaves computes distinctNames pattern settled.distinct
    (grounded.mono settled.grown settled.same)
    (representsPattern.mono settled.grown (List.prefix_refl _)) denotes
  refine matching.mono (fun success later matched => ?_) fun _ _ distinct => distinct
  have matched := settled.andThen matched
  refine matched.imp ?_ ?_
  · intro assignment agrees secondEq
    exact ⟨value, sameValue assignment (matched.extended.agrees grounded agrees), secondEq⟩
  · rintro assignment agrees ⟨value', firstEq, secondEq⟩
    rw [sameValue assignment agrees, Option.some.injEq] at firstEq
    rw [secondEq, firstEq]

/-- A disequation holds exactly if the values of its sides have different numbers. -/
theorem disunify_leaves {meaning : Interpretation} (computes : functions.Computes meaning)
    (distinctNames : names.Nodup) {bindings : Bindings} (distinct : bindings.terms.Distinct)
    (grounded : bindings.Grounded) {lhs rhs : PlanTerm} {first second : Term}
    (representsLhs : lhs.Represents bindings.terms names first)
    (representsRhs : rhs.Represents bindings.terms names second) :
    LeavesWithRoom
      (do
        let left ← lhs.eval functions
        let right ← rhs.eval functions
        return decide (left ≠ right))
      bindings
      (fun success later => Bindings.Matched names bindings later success
        (fun assignment => ∃ left right, first.eval meaning assignment = some left ∧
          second.eval meaning assignment = some right ∧ left ≠ right)
        (fun assignment => ∃ left right, first.eval meaning assignment = some left ∧
          second.eval meaning assignment = some right ∧ left ≠ right))
      fun _ later => later.terms.Distinct := by
  have evaluatedLhs := PlanTerm.eval_leaves computes distinctNames lhs distinct grounded
    representsLhs
  refine .bind evaluatedLhs (fun _ => .bind (PlanTerm.interns_eval functions rhs) fun _ => .pure) ?_
  rintro left middle ⟨settled, leftEq⟩
  have evaluatedRhs := PlanTerm.eval_leaves computes distinctNames rhs settled.distinct
    (grounded.mono settled.grown settled.same)
    (representsRhs.mono settled.grown (List.prefix_refl _))
  refine .bind evaluatedRhs (fun _ => .pure) ?_
  rintro right later ⟨settled', rightEq⟩
  have rightEq' := fun assignment (agrees : bindings.Agrees names assignment) =>
    rightEq assignment (agrees.mono settled.grown settled.same)
  refine .pure (.of_settled (settled'.trans settled) grounded ?_ ?_)
  · -- Different numbers denote different values, as every term is stored once.
    intro apart assignment agrees
    obtain ⟨value, valueEq, denotes⟩ := leftEq assignment agrees
    obtain ⟨value', valueEq', denotes'⟩ := rightEq' assignment agrees
    refine ⟨value, value', valueEq, valueEq', ?_⟩
    rintro rfl
    have same := (denotes.mono settled'.grown).injective settled'.distinct denotes'
    simp [same] at apart
  · rintro assignment agrees ⟨first', second', firstEq, secondEq, apart⟩
    obtain ⟨value, valueEq, denotes⟩ := leftEq assignment agrees
    obtain ⟨value', valueEq', denotes'⟩ := rightEq' assignment agrees
    rw [valueEq, Option.some.injEq] at firstEq
    rw [valueEq', Option.some.injEq] at secondEq
    refine decide_eq_true fun same => apart ?_
    rw [← firstEq, ← secondEq]
    exact (same ▸ denotes.mono settled'.grown).unique denotes'

/-- A negated atom holds exactly if the lookup finds nothing. -/
theorem TaskContext.absent_leaves (computes : context.functions.Computes frame.meaning)
    (distinctNames : names.Nodup) {state : TaskState} {count : String → Nat} {planned : PlanAtom}
    {literal : BodyLiteral} (workspaceFits : state.workspace.Fits frame context.strategy)
    (grounded : state.bindings.Grounded)
    (fits : (PlanLiteral.absent planned).Fits (context.strategy.growing frame.symbols)
      (state.workspace.referents context.strategy) names count literal) :
    LeavesWithRoom (context.filter (.absent planned)) state
      (fun success later => ∃ bindings, later = state.withBindings bindings ∧
        Bindings.Matched names state.bindings bindings success
          (fun assignment => frame.Maybe count assignment literal)
          (fun assignment => frame.Sure count assignment literal))
      fun _ later => state.Interrupted later := by
  obtain ⟨atom, literalEq, negated, unmarked, outside, noFree, often, atomFits⟩ := fits
  obtain ⟨literal, delta⟩ := literal
  obtain rfl : literal = .predicate atom := literalEq
  obtain rfl : delta = false := unmarked
  refine .bind (lookup_leaves computes distinctNames workspaceFits.distinct grounded atomFits)
    (fun _ => .pure) ?_
  rintro view later ⟨bindings, key, settled, rfl, rfl, keyOf⟩
  refine .pure ⟨bindings, rfl, .of_settled settled grounded ?_ ?_⟩
  all_goals
    obtain ⟨index, indexEq, patternEq⟩ := atomFits.provides
    have settledGrounded := grounded.mono settled.grown settled.same
    have keyFits := keyOf.fitsFront settledGrounded distinctNames atomFits.args_length
      atomFits.arity
    have found := (workspaceFits.source_valid false).isEmpty_get
      (workspaceFits.source_bounded false) indexEq (patternEq ▸ keyFits)
    rw [patternEq] at found
  · -- A fact that matched the atom would be in the store, as the relation does not grow.
    intro isEmpty assignment agrees
    have agreesLater : bindings.Agrees names assignment := agrees.mono settled.grown settled.same
    refine BodyLiteral.Holds.loosely ?_
    simp only [BodyLiteral.Holds, Literal.Holds, negated, if_true]
    rintro ⟨other, otherAgrees, values, valuesEq, member⟩
    have member : (atom.symbol, values) ∈ frame.certain false :=
      workspaceFits.frozen member outside
    obtain ⟨tuple, holds, denotes⟩ := workspaceFits.certain false _ member
    refine found.mp isEmpty tuple (atomFits.symbol_eq ▸ holds) ?_
    have sameBound : Term.evalList frame.meaning assignment (planned.pattern.keepBound atom.args) =
        Term.evalList frame.meaning other (planned.pattern.keepBound atom.args) := by
      refine Term.evalList_congr _ fun name occurs => otherAgrees name ?_
      rw [Term.varsList_eq_flatMap] at occurs
      obtain ⟨arg, argMember, inArg⟩ := List.mem_flatMap.mp occurs
      exact often arg (Pattern.mem_keepBound.mp argMember) name inArg
    exact keyOf.keepBound_eq settled.distinct agreesLater
      (sameBound.trans (Term.evalList_keep valuesEq _ _)) (denotes.mono settled.grown)
  · -- A tuple that is found would match the atom, which is sure not to happen.
    intro assignment agrees holds
    have agreesLater : bindings.Agrees names assignment := agrees.mono settled.grown settled.same
    refine found.mpr fun tuple tupleHolds bound => ?_
    obtain ⟨values, denotes, member⟩ := workspaceFits.possible false _ tuple tupleHolds
    rw [atomFits.symbol_eq] at member
    have boundEq := keyOf.evalList_keepBound agreesLater bound (denotes.mono settled.grown)
    have valuesLength : values.length = planned.pattern.length := by
      rw [← denotes.length_eq, (workspaceFits.source_valid false).length_of_holds tupleHolds,
        atomFits.arity]
    obtain ⟨other, otherAgrees, -, otherEq⟩ := exists_evalList_of_columns atomFits.args_length
      valuesLength atomFits.ignored atomFits.counted boundEq
      (by rw [Pattern.keepFree_eq_nil noFree, Pattern.keepFree_eq_nil noFree]; rfl)
    simp only [Frame.Sure, BodyLiteral.Holds, Literal.Holds, negated, if_true] at holds
    exact holds ⟨other, otherAgrees, values, otherEq, workspaceFits.frozen member outside⟩

/-- A literal that is filtered lets the task go on if it is sure to hold, and only if it may hold. -/
theorem TaskContext.filter_leaves (computes : context.functions.Computes frame.meaning)
    (distinctNames : names.Nodup) {state : TaskState} {count : String → Nat}
    {planned : PlanLiteral} {literal : BodyLiteral}
    (workspaceFits : state.workspace.Fits frame context.strategy)
    (grounded : state.bindings.Grounded)
    (fits : planned.Fits (context.strategy.growing frame.symbols)
      (state.workspace.referents context.strategy) names count literal) :
    LeavesWithRoom (context.filter planned) state
      (fun success later => ∃ bindings, later = state.withBindings bindings ∧
        Bindings.Matched names state.bindings bindings success
          (fun assignment => frame.Maybe count assignment literal)
          (fun assignment => frame.Sure count assignment literal))
      fun _ later => state.Interrupted later := by
  cases planned with
  | unify source pattern =>
      -- The plan may have turned the equation around.
      obtain ⟨first, second, literalEq, representsSource, representsPattern⟩ := fits
      have unified := unify_leaves computes distinctNames workspaceFits.distinct grounded
        representsSource representsPattern
      refine (TaskM.evaluating_leaves (.bind (PlanTerm.interns_eval _ _) fun _ =>
        PlanTerm.interns_matchValue _ _ _) unified).mono ?_ fun _ _ stopped => stopped
      rintro success later ⟨bindings, rfl, matched⟩
      refine ⟨bindings, rfl, matched.imp ?_ ?_⟩
      · rintro assignment - ⟨value, firstEq, secondEq⟩
        refine BodyLiteral.Holds.loosely ?_
        rcases literalEq with literalEq | literalEq
        · simp only [BodyLiteral.Holds, literalEq]
          exact ⟨value, firstEq, secondEq⟩
        · simp only [BodyLiteral.Holds, literalEq]
          exact ⟨value, secondEq, firstEq⟩
      · intro assignment _ holds
        rcases literalEq with literalEq | literalEq
        · simp only [Frame.Sure, BodyLiteral.Holds, literalEq] at holds
          exact holds
        · simp only [Frame.Sure, BodyLiteral.Holds, literalEq] at holds
          obtain ⟨value, secondEq, firstEq⟩ := holds
          exact ⟨value, firstEq, secondEq⟩
  | disunify lhs rhs =>
      obtain ⟨first, second, literalEq, representsLhs, representsRhs⟩ := fits
      have disunified := disunify_leaves computes distinctNames workspaceFits.distinct grounded
        representsLhs representsRhs
      refine (TaskM.evaluating_leaves (.bind (PlanTerm.interns_eval _ _) fun _ =>
        .bind (PlanTerm.interns_eval _ _) fun _ => .pure) disunified).mono ?_
          fun _ _ stopped => stopped
      rintro success later ⟨bindings, rfl, matched⟩
      refine ⟨bindings, rfl, matched.imp ?_ ?_⟩
      · intro assignment _ holds
        refine BodyLiteral.Holds.loosely ?_
        simp only [BodyLiteral.Holds, literalEq]
        exact holds
      · intro assignment _ holds
        simp only [Frame.Sure, BodyLiteral.Holds, literalEq] at holds
        exact holds
  | absent planned => exact absent_leaves computes distinctNames workspaceFits grounded fits
  | scan planned => exact .throw (TaskState.interrupted_self workspaceFits.distinct)

end Datalog
