import Datalog.Proofs.Evaluation.Lookup
import Datalog.Proofs.Planning.Bodies
import Datalog.Proofs.Safety.Stores
import Datalog.Proofs.Safety.Terms

/-!
# Literals that can be evaluated where they stand

The join order counts every variable of the literals before a place as bound.  Not all of them have
values: a column with a variable that occurs nowhere else is ignored, and a negated atom binds nothing.
But a variable that a literal or the head asks for occurs twice, and such a variable has a value.
-/

namespace Datalog

/-- The variables that have values, given those that are counted as bound: a variable that occurs only
once may have been ignored. -/
def JoinOrder.known (count : String → Nat) (bound : List String) : Set String :=
  {name | name ∈ bound ∧ count name ≠ 1}

/-- Variables that come back in a literal occur more than once. -/
def BodyLiteral.Repeats (count : String → Nat) (bound : List String) (literal : BodyLiteral) : Prop :=
  ∀ name ∈ literal.vars, name ∈ bound → count name ≠ 1

variable {planning : Planner.Context} {planned : Planner.State} {count : String → Nat}
  {bound : List String} {names : List String}

section Known

variable {literal : BodyLiteral} {term : Term}

theorem BodyLiteral.Repeats.known_of_isBound (repeats : literal.Repeats count bound)
    (inLiteral : ∀ name ∈ term.vars, name ∈ literal.vars)
    (isBound : JoinOrder.isBound bound term = true) :
    ∀ name ∈ term.vars, name ∈ JoinOrder.known count bound := by
  intro name occurs
  have inBound := JoinOrder.mem_of_isBound isBound occurs
  exact ⟨inBound, repeats name (inLiteral name occurs) inBound⟩

/-- The variables underneath the calls of a matchable term of a literal are known. -/
theorem BodyLiteral.Repeats.known_of_isMatchable (repeats : literal.Repeats count bound)
    (inLiteral : ∀ name ∈ term.callVars, name ∈ literal.vars)
    (matchable : JoinOrder.isMatchable bound term = true) :
    ∀ name ∈ term.callVars, name ∈ JoinOrder.known count bound := by
  intro name occurs
  have inBound := JoinOrder.mem_of_isMatchable matchable occurs
  exact ⟨inBound, repeats name (inLiteral name occurs) inBound⟩

theorem JoinOrder.isMatchable_of_isBound (isBound : JoinOrder.isBound bound term = true) :
    JoinOrder.isMatchable bound term = true := by
  refine List.all_eq_true.mpr fun name member => ?_
  exact List.all_eq_true.mp isBound name (Term.mem_vars_of_mem_callVars term member)

end Known

theorem PlanTerm.CallableAll.keep {functions : Registry} {plans : List PlanTerm}
    (callable : PlanTerm.CallableAll functions plans) (wanted : Binding → Bool) (pattern : Pattern) :
    PlanTerm.CallableAll functions (pattern.keep wanted plans) := by
  induction plans generalizing pattern with
  | nil => cases pattern <;> trivial
  | cons plan plans ih =>
      cases pattern with
      | nil => trivial
      | cons binding pattern =>
          simp only [Pattern.keep]
          split
          · exact ⟨callable.1, ih callable.2 pattern⟩
          · exact ih callable.2 pattern

/-! ## Atoms -/

namespace Planner.PlannedAtom

variable {atom : PlanAtom} {source : Atom} {delta : Bool}

theorem mem_varsList_keep {wanted : Binding → Bool} {args : List Term} {pattern : Pattern}
    {name : String} :
    name ∈ Term.varsList (pattern.keep wanted args) ↔
      ∃ arg binding, wanted binding = true ∧ (arg, binding) ∈ args.zip pattern ∧ name ∈ arg.vars := by
  rw [Term.varsList_eq_flatMap, List.mem_flatMap]
  constructor
  · rintro ⟨arg, kept, occurs⟩
    obtain ⟨binding, isWanted, member⟩ := Pattern.mem_keep.mp kept
    exact ⟨arg, binding, isWanted, member, occurs⟩
  · rintro ⟨arg, binding, isWanted, member, occurs⟩
    exact ⟨arg, Pattern.mem_keep.mpr ⟨binding, isWanted, member⟩, occurs⟩

/-- The arguments of an atom with the treatment of their columns. -/
theorem mem_zip_iff (plannedAtom : PlannedAtom planning planned count bound atom source delta)
    {arg : Term} {binding : Binding} :
    (arg, binding) ∈ source.args.zip atom.pattern ↔
      arg ∈ source.args ∧ bindingOf count bound arg = binding := by
  rw [plannedAtom.pattern_eq]
  constructor
  · exact bindingOf_of_mem_zip
  · rintro ⟨member, rfl⟩
    obtain ⟨position, inside, rfl⟩ := List.mem_iff_getElem.mp member
    refine List.mem_iff_getElem.mpr ⟨position, by simpa using inside, by simp⟩

/-- A lookup evaluates bound arguments only, so that it fails in a call or not at all. -/
theorem lookup_safe {context : TaskContext}
    (plannedAtom : PlannedAtom planning planned count bound atom source delta)
    (functionsEq : planning.functions = context.functions)
    (repeats : ∀ name ∈ source.vars, name ∈ bound → count name ≠ 1) {state : TaskState}
    (valid : state.workspace.StoresValid)
    (knows : state.substitution.Knows planned.names (JoinOrder.known count bound)) :
    Leaves (context.lookup atom) state
      (fun view later => view.Sized atom.symbol.arity ∧ ∃ bindings,
        later = state.withBindings bindings ∧ bindings.substitution = state.substitution)
      fun error later => (∃ bindings, later = state.withBindings bindings) ∧
        error.ComesFromCall context.functions := by
  have boundKnown : ∀ name ∈ Term.varsList (atom.pattern.keepBound source.args),
      name ∈ JoinOrder.known count bound := by
    intro name occurs
    obtain ⟨arg, binding, isBound, member, occurs⟩ := mem_varsList_keep.mp occurs
    obtain ⟨inArgs, bindingEq⟩ := plannedAtom.mem_zip_iff.mp member
    obtain rfl : binding = .bound := by simpa using isBound
    have inBound := JoinOrder.mem_of_isBound (isBound_of_bindingOf bindingEq) occurs
    exact ⟨inBound, repeats name (mem_vars_of_mem_args inArgs occurs) inBound⟩
  have callable := functionsEq ▸ plannedAtom.args.callable
  have evaluated := PlanTerm.evalList_safe (atom.pattern.keepBound atom.args)
    (plannedAtom.args.represents.keep _ atom.pattern) (callable.keep _ atom.pattern)
    (show state.bindings.substitution.Knows _ _ from knows) boundKnown
  unfold TaskContext.lookup
  rw [atom.boundArgs_eq]
  refine ((TaskM.leaves_ofBindM evaluated).imp_stopped ?_).bind ?_
  · rintro error _ ⟨bindings, rfl, failed⟩
    exact ⟨⟨bindings, rfl⟩, failed⟩
  · rintro key _ ⟨bindings, rfl, -, same⟩
    have stores : (state.withBindings bindings).workspace.StoresValid := { valid with }
    exact ⟨(stores.storeFor context atom).sized_get atom.symbol atom.index key, bindings, rfl, same⟩

/-- Matching a tuple of the right length makes the variables of a positive atom known. -/
theorem matchColumns_safe {functions : Registry}
    (plannedAtom : PlannedAtom planning planned count bound atom source delta)
    (functionsEq : planning.functions = functions) (distinctNames : planned.names.Nodup)
    (repeats : ∀ name ∈ source.vars, name ∈ bound → count name ≠ 1)
    (matchable : ∀ arg ∈ source.args, JoinOrder.isMatchable bound arg = true) (checkBound : Bool)
    {bindings : Bindings}
    (knows : bindings.substitution.Knows planned.names (JoinOrder.known count bound)) {tuple : Tuple}
    (length : tuple.length = atom.symbol.arity) :
    Leaves (matchColumns functions checkBound atom.args atom.pattern tuple) bindings
      (bindings.Learns planned.names (JoinOrder.known count (bound ++ source.vars)))
      fun error _ => error.ComesFromCall functions := by
  have patternLength : source.args.length = atom.pattern.length := by simp [plannedAtom.pattern_eq]
  have argsLength := plannedAtom.args.represents.length_eq.trans patternLength
  have tupleLength : tuple.length = atom.pattern.length := by
    rw [length, plannedAtom.symbol_eq, ← plannedAtom.arity, patternLength]
  have callable := functionsEq ▸ plannedAtom.args.callable
  have callsKnown : ∀ name ∈ Term.callVarsList (atom.pattern.keep (compared checkBound) source.args),
      name ∈ JoinOrder.known count bound := by
    intro name occurs
    rw [Term.callVarsList_eq_flatMap, List.mem_flatMap] at occurs
    obtain ⟨arg, kept, occurs⟩ := occurs
    obtain ⟨binding, -, member⟩ := Pattern.mem_keep.mp kept
    have inArgs := (plannedAtom.mem_zip_iff.mp member).1
    have inBound := JoinOrder.mem_of_isMatchable (matchable arg inArgs) occurs
    exact ⟨inBound, repeats name
      (mem_vars_of_mem_args inArgs (Term.mem_vars_of_mem_callVars arg occurs)) inBound⟩
  rw [matchColumns_eq argsLength tupleLength]
  refine (PlanTerm.matchList_safe distinctNames _
    (plannedAtom.args.represents.keep (compared checkBound) atom.pattern) (callable.keep _ atom.pattern)
    (Pattern.length_keep argsLength tupleLength) knows callsKnown).imp_done
      fun success later learns => learns.mono ?_
  rintro name ⟨occurs, often⟩
  rcases List.mem_append.mp occurs with before | here
  · exact .inl ⟨before, often⟩
  · -- A variable that was not bound and occurs again stands in a column that has been compared.
    by_cases before : name ∈ bound
    · exact .inl ⟨before, often⟩
    · unfold Atom.vars at here
      rw [Term.varsList_eq_flatMap, List.mem_flatMap] at here
      obtain ⟨arg, inArgs, occurs⟩ := here
      refine .inr (mem_varsList_keep.mpr ⟨arg, _, ?_, plannedAtom.mem_zip_iff.mpr ⟨inArgs, rfl⟩, occurs⟩)
      cases bindingEq : bindingOf count bound arg with
      | free => simp [compared]
      | bound => exact absurd (JoinOrder.mem_of_isBound (isBound_of_bindingOf bindingEq) occurs) before
      | ignored =>
          obtain ⟨other, rfl, once⟩ := exists_var_of_bindingOf bindingEq
          obtain rfl : name = other := by simpa [Term.vars] using occurs
          exact absurd once often

end Planner.PlannedAtom

/-! ## Checks -/

/-- A check that may have bound slots and interned terms. -/
def TaskM.Checks (functions : Registry) (names : List String) (known : Set String)
    (check : TaskM Bool) (state : TaskState) : Prop :=
  Leaves check state
    (fun success later => ∃ bindings, later = state.withBindings bindings ∧
      state.bindings.Learns names known success bindings)
    fun error later => (∃ bindings, later = state.withBindings bindings) ∧
      error.ComesFromCall functions

theorem TaskM.checks_ofBindM {functions : Registry} {known : Set String} {computation : BindM Bool}
    {state : TaskState}
    (leaves : Leaves computation state.bindings (state.bindings.Learns names known)
      fun error _ => error.ComesFromCall functions) :
    TaskM.Checks functions names known (TaskM.ofBindM computation) state := by
  refine (TaskM.leaves_ofBindM leaves).mono ?_ ?_
  · rintro success _ ⟨bindings, rfl, learns⟩
    exact ⟨bindings, rfl, learns⟩
  · rintro error _ ⟨bindings, rfl, failed⟩
    exact ⟨⟨bindings, rfl⟩, failed⟩

/-! ## Equations and disequations -/

theorem Literal.mem_vars_unification {lhs rhs : Term} {negated : Bool} {name : String} :
    name ∈ (Literal.unification lhs rhs negated).vars ↔ name ∈ lhs.vars ∨ name ∈ rhs.vars := by
  simp [Literal.vars, Literal.terms, Term.varsList]

theorem JoinOrder.isMatchable_right {lhs rhs : Term}
    (evaluable : isEvaluable count bound (.unification lhs rhs false) = true) :
    isMatchable bound rhs = true := by
  rcases Bool.or_eq_true_iff.mp evaluable with both | both
  · exact (Bool.and_eq_true_iff.mp both).2
  · exact isMatchable_of_isBound (Bool.and_eq_true_iff.mp both).1

/-- If the left side of an equation is not bound, the right side is. -/
theorem JoinOrder.isBound_right {lhs rhs : Term}
    (evaluable : isEvaluable count bound (.unification lhs rhs false) = true)
    (unbound : ¬ isBound bound lhs = true) :
    isBound bound rhs = true ∧ isMatchable bound lhs = true := by
  rcases Bool.or_eq_true_iff.mp evaluable with both | both
  · exact absurd (Bool.and_eq_true_iff.mp both).1 unbound
  · exact Bool.and_eq_true_iff.mp both

namespace Planner.Planned

variable {left right : PlanTerm} {first second : Term} {literal : BodyLiteral}

theorem unify_safe (plannedLeft : Planned planning.functions planned left first)
    (plannedRight : Planned planning.functions planned right second)
    (sides : ∀ name, name ∈ literal.vars ↔ name ∈ first.vars ∨ name ∈ second.vars)
    (repeats : literal.Repeats count bound) (isBound : JoinOrder.isBound bound first = true)
    (matchable : JoinOrder.isMatchable bound second = true) (distinctNames : planned.names.Nodup)
    {bindings : Bindings}
    (knows : bindings.substitution.Knows planned.names (JoinOrder.known count bound)) :
    Leaves
      (do
        let value ← left.eval planning.functions
        right.matchValue planning.functions value)
      bindings (bindings.Learns planned.names (JoinOrder.known count (bound ++ literal.vars)))
      fun error _ => error.ComesFromCall planning.functions := by
  have firstKnown := repeats.known_of_isBound
    (fun name occurs => (sides name).mpr (.inl occurs)) isBound
  have callsKnown := repeats.known_of_isMatchable
    (fun name occurs => (sides name).mpr (.inr (Term.mem_vars_of_mem_callVars second occurs))) matchable
  refine (PlanTerm.eval_safe left plannedLeft.represents plannedLeft.callable knows firstKnown).bind ?_
  intro value middle same
  rw [← same] at knows
  refine (PlanTerm.matchValue_safe distinctNames right value plannedRight.represents
    plannedRight.callable knows callsKnown).imp_done fun success later learns => ?_
  have learns' : bindings.Learns planned.names _ success later := ⟨same ▸ learns.1, learns.2⟩
  refine learns'.mono ?_
  rintro name ⟨occurs, often⟩
  rcases List.mem_append.mp occurs with before | here
  · exact .inl ⟨before, often⟩
  · exact ((sides name).mp here).imp (firstKnown name) id

theorem disunify_safe (plannedLeft : Planned planning.functions planned left first)
    (plannedRight : Planned planning.functions planned right second)
    (sides : ∀ name, name ∈ literal.vars ↔ name ∈ first.vars ∨ name ∈ second.vars)
    (repeats : literal.Repeats count bound) (isBound : JoinOrder.isBound bound first = true)
    (isBound' : JoinOrder.isBound bound second = true) {bindings : Bindings}
    (knows : bindings.substitution.Knows planned.names (JoinOrder.known count bound)) :
    Leaves
      (do
        let value ← left.eval planning.functions
        let other ← right.eval planning.functions
        return decide (value ≠ other))
      bindings (bindings.Learns planned.names (JoinOrder.known count (bound ++ literal.vars)))
      fun error _ => error.ComesFromCall planning.functions := by
  have firstKnown := repeats.known_of_isBound
    (fun name occurs => (sides name).mpr (.inl occurs)) isBound
  have secondKnown := repeats.known_of_isBound
    (fun name occurs => (sides name).mpr (.inr occurs)) isBound'
  refine (PlanTerm.eval_safe left plannedLeft.represents plannedLeft.callable knows firstKnown).bind ?_
  intro value middle same
  have knowsMiddle := knows
  rw [← same] at knowsMiddle
  refine (PlanTerm.eval_safe right plannedRight.represents plannedRight.callable knowsMiddle
    secondKnown).bind ?_
  intro other later same'
  have unchanged := same'.trans same
  refine ⟨unchanged ▸ .refl _, fun _ => unchanged ▸ knows.mono ?_⟩
  rintro name ⟨occurs, often⟩
  rcases List.mem_append.mp occurs with before | here
  · exact ⟨before, often⟩
  · exact ((sides name).mp here).elim (firstKnown name) (secondKnown name)

end Planner.Planned

/-! ## Filters -/

/-- A negated atom is looked up and binds nothing.  Its variables are known or occur nowhere else. -/
theorem Planner.PlannedAtom.absent_checks {context : TaskContext} {atom : PlanAtom} {source : Atom}
    {delta : Bool} (plannedAtom : PlannedAtom planning planned count bound atom source delta)
    (functionsEq : planning.functions = context.functions)
    (repeats : ∀ name ∈ source.vars, name ∈ bound → count name ≠ 1)
    (evaluable : ∀ arg ∈ source.args,
      (JoinOrder.isBound bound arg || JoinOrder.isSingleton count arg) = true)
    {state : TaskState} (valid : state.workspace.StoresValid)
    (knows : state.substitution.Knows planned.names (JoinOrder.known count bound)) :
    TaskM.Checks context.functions planned.names (JoinOrder.known count (bound ++ source.vars))
      (context.filter (.absent atom)) state := by
  refine (plannedAtom.lookup_safe functionsEq repeats valid knows).bind ?_
  rintro view _ ⟨-, bindings, rfl, same⟩
  refine ⟨bindings, rfl, same ▸ .refl _, fun _ => ?_⟩
  rw [same]
  refine knows.mono ?_
  rintro name ⟨occurs, often⟩
  rcases List.mem_append.mp occurs with before | here
  · exact ⟨before, often⟩
  · unfold Atom.vars at here
    rw [Term.varsList_eq_flatMap, List.mem_flatMap] at here
    obtain ⟨arg, inArgs, occurs⟩ := here
    rcases Bool.or_eq_true_iff.mp (evaluable arg inArgs) with isBound | singleton
    · exact ⟨JoinOrder.mem_of_isBound isBound occurs, often⟩
    · obtain ⟨other, rfl, once⟩ := exists_var_of_isSingleton singleton
      obtain rfl : name = other := by simpa [Term.vars] using occurs
      exact absurd once often

/-- A literal that is no positive atom is evaluated where it stands unless one of its calls fails, and
if it holds, its variables are known as the join order says. -/
theorem filter_checks {context : TaskContext} {plan : PlanLiteral} {literal : BodyLiteral}
    (plannedLiteral : Planner.PlannedLiteral planning planned count bound plan literal)
    (functionsEq : planning.functions = context.functions) (distinctNames : planned.names.Nodup)
    (evaluable : JoinOrder.isEvaluable count bound literal.literal = true)
    (repeats : literal.Repeats count bound) (noScan : plan.isScan = false) {state : TaskState}
    (valid : state.workspace.StoresValid)
    (knows : state.substitution.Knows planned.names (JoinOrder.known count bound)) :
    TaskM.Checks context.functions planned.names (JoinOrder.known count (bound ++ literal.vars))
      (context.filter plan) state := by
  have knows' : state.bindings.substitution.Knows planned.names (JoinOrder.known count bound) := knows
  obtain ⟨literal, delta⟩ := literal
  unfold Planner.PlannedLiteral at plannedLiteral
  split at plannedLiteral
  · next lhs rhs left right literalEq =>
      obtain rfl : literal = .unification lhs rhs true := literalEq
      obtain ⟨boundLeft, boundRight⟩ := Bool.and_eq_true_iff.mp evaluable
      have safe := plannedLiteral.1.disunify_safe plannedLiteral.2
        (fun _ => Literal.mem_vars_unification) repeats boundLeft boundRight knows'
      rw [functionsEq] at safe
      exact TaskM.checks_ofBindM safe
  · next lhs rhs source pattern literalEq =>
      obtain rfl : literal = .unification lhs rhs false := literalEq
      split at plannedLiteral
      · next boundLeft =>
          have safe := plannedLiteral.1.unify_safe plannedLiteral.2
            (fun _ => Literal.mem_vars_unification) repeats boundLeft
            (JoinOrder.isMatchable_right evaluable) distinctNames knows'
          rw [functionsEq] at safe
          exact TaskM.checks_ofBindM safe
      · next unbound =>
          obtain ⟨boundRight, matchable⟩ := JoinOrder.isBound_right evaluable unbound
          have safe := plannedLiteral.1.unify_safe plannedLiteral.2
            (fun _ => Literal.mem_vars_unification.trans or_comm) repeats boundRight matchable
            distinctNames knows'
          rw [functionsEq] at safe
          exact TaskM.checks_ofBindM safe
  · cases noScan
  · next source atom literalEq =>
      obtain rfl : literal = .predicate source := literalEq
      obtain ⟨negated, plannedAtom⟩ := plannedLiteral
      simp only [JoinOrder.isEvaluable, negated, if_true] at evaluable
      exact plannedAtom.absent_checks functionsEq repeats (List.all_eq_true.mp evaluable) valid knows
  · exact plannedLiteral.elim

end Datalog
