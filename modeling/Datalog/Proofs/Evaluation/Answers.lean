import Datalog.Proofs.Evaluation.Extension
import Datalog.Proofs.Evaluation.WarrantedTasks
import Datalog.Proofs.Planning.CallFree
import Datalog.Proofs.Planning.Folding
import Datalog.Proofs.Planning.Isolated
import Datalog.Proofs.Planning.Query

/-!
# Answers

A query is matched against every tuple of its relation, from left to right and with no variable known.  A
query without calls is told by its terms alone: a tuple is an answer if some values of the variables turn
the arguments into the values that the tuple stands for.  With calls it also matters whether a call reads
a variable that only a later argument would give a value.  Then no tuple is an answer, and whether the
query fails or has no answers depends on how far its tuples match.
-/

namespace Datalog

/-! ## Values written out -/

namespace Term

variable {meaning : Interpretation} {assignment : Assignment}

mutual

theorem eval_instantiate (other : Assignment) : (term : Term) →
    (term.instantiate assignment).eval meaning other = term.eval meaning assignment
  | .var name => Value.eval_toTerm other (assignment name)
  | .bool _ | .int _ | .str _ => rfl
  | .ctor _ args | .call _ args => by
      simp only [instantiate, eval, evalList_instantiateList other args]

theorem evalList_instantiateList (other : Assignment) : (terms : List Term) →
    evalList meaning other (instantiateList assignment terms) = evalList meaning assignment terms
  | [] => rfl
  | term :: terms => by
      simp only [instantiateList, evalList, eval_instantiate other term,
        evalList_instantiateList other terms]

end

mutual

/-- A term without calls becomes its value once the values of its variables are written out. -/
theorem instantiate_of_eval : (term : Term) → {value : Value} → term.containsCall = false →
    term.eval meaning assignment = some value → term.instantiate assignment = value.toTerm
  | .var _, _, _, evaluated | .bool _, _, _, evaluated | .int _, _, _, evaluated
  | .str _, _, _, evaluated => by
      cases evaluated
      rfl
  | .ctor name args, _, noCall, evaluated => by
      obtain ⟨values, evaluatedArgs, rfl⟩ := Option.map_eq_some_iff.mp evaluated
      exact congrArg (Term.ctor name) (instantiateList_of_evalList args noCall evaluatedArgs)
  | .call .., _, noCall, _ => by cases noCall

theorem instantiateList_of_evalList : (terms : List Term) → {values : List Value} →
    containsCallList terms = false → evalList meaning assignment terms = some values →
      instantiateList assignment terms = Value.toTermList values
  | [], _, _, evaluated => by
      cases evaluated
      rfl
  | term :: terms, _, noCall, evaluated => by
      obtain ⟨noCallHere, noCallThere⟩ := Bool.or_eq_false_iff.mp noCall
      obtain ⟨value, values, first, others, rfl⟩ := evalList_cons_eq_some.mp evaluated
      rw [instantiateList, instantiate_of_eval term noCallHere first,
        instantiateList_of_evalList terms noCallThere others]
      rfl

end

theorem evalList_eq_some_iff_of_callFree {terms : List Term} {values : List Value}
    (noCall : containsCallList terms = false) :
    evalList meaning assignment terms = some values ↔
      instantiateList assignment terms = Value.toTermList values := by
  constructor
  · exact instantiateList_of_evalList terms noCall
  · intro written
    rw [← evalList_instantiateList assignment terms, written]
    exact Value.evalList_toTermList assignment values

end Term

/-! ## Matching without calls -/

namespace PlanTerm

variable {functions : Registry}

mutual

theorem matchValue_keepsTerms : (plan : PlanTerm) → plan.CallFree → (value : TermId) →
    {bindings : Bindings} →
      Leaves (plan.matchValue functions value) bindings
        (fun _ later => later.terms = bindings.terms) fun _ later => later.terms = bindings.terms
  | .slot number, _, value, bindings => by
      unfold matchValue
      apply ((slotValue_keeps number).imp_stopped fun _ _ same => congrArg Bindings.terms same).bind
      rintro present later ⟨rfl, -⟩
      cases present <;> rfl
  | .const id, _, value, bindings => by
      unfold matchValue
      rfl
  | .ctor name args, callFree, value, bindings => by
      unfold matchValue
      rw [leaves_bind, leaves_get]
      split
      · split
        · exact matchList_keepsTerms args callFree _
        · rfl
      · rfl
  | .call _ _, callFree, _, _ => absurd callFree not_callFree_call

theorem matchList_keepsTerms : (plans : List PlanTerm) → CallFreeAll plans →
    (values : List TermId) → {bindings : Bindings} →
      Leaves (matchList functions plans values) bindings
        (fun _ later => later.terms = bindings.terms) fun _ later => later.terms = bindings.terms
  | [], _, _, _ => by
      unfold matchList
      rfl
  | _ :: _, _, [], _ => by
      unfold matchList
      rfl
  | plan :: plans, callFree, value :: values, bindings => by
      unfold matchList
      apply (matchValue_keepsTerms plan callFree.1 value).bind
      intro success middle same
      cases success with
      | false => exact same
      | true =>
          rw [← same]
          exact matchList_keepsTerms plans callFree.2 values

end

end PlanTerm

/-! ## Queries -/

namespace Atom

/-- Some values of the variables turn the arguments of a query into the values that a tuple stands
for. -/
def Describes (query : Atom) (terms : TermStore) (tuple : Tuple) : Prop :=
  ∃ row assignment, terms.DenotesAll tuple row ∧
    Term.instantiateList assignment query.args = Value.toTermList row

/-- If the arguments of a query are matched from left to right, a call reads a variable before it has a
value. -/
def ReadsEarly (query : Atom) : Prop :=
  Term.earlyList [] query.args ≠ []

/-- A call has failed or, only if something is read early, a variable without a value was read. -/
def MayFail (query : Atom) (functions : Registry) (error : EvalError) : Prop :=
  functions.Raises error ∨
    query.ReadsEarly ∧ ∃ slot : Nat, error = .nonGround s!"variable slot {slot}"

instance (query : Atom) : Decidable query.ReadsEarly :=
  inferInstanceAs (Decidable (Term.earlyList [] query.args ≠ []))

end Atom

/-! ## One tuple -/

namespace QueryPlan

variable {functions : Registry} {base terms : TermStore} {names : List String} {plan : QueryPlan}
  {query : Atom} {tuple : Tuple}

theorem leaves_answers {done : Bool → Bindings → Prop} {stopped : TaskError → Bindings → Prop}
    (matched : Leaves (PlanTerm.matchList functions plan.args tuple)
      { terms, substitution := .unbound plan.slots } done stopped) :
    Leaves (plan.answers functions tuple) terms
      (fun success later => ∃ bindings, later = bindings.terms ∧ done success bindings)
      fun error later => ∃ failure bindings,
        error = failure.toEvalError ∧ later = bindings.terms ∧ stopped failure bindings := by
  unfold Leaves at matched ⊢
  unfold answers
  split at matched
  · next outcome =>
      rw [outcome]
      exact ⟨_, rfl, matched⟩
  · next outcome =>
      rw [outcome]
      exact ⟨_, _, rfl, rfl, matched⟩

theorem Made.knows (made : plan.Made functions base names query) :
    (Substitution.unbound plan.slots).Knows names ∅ :=
  made.slots_eq ▸ .unbound names

theorem Made.knowsOnly (made : plan.Made functions base names query) :
    (Substitution.unbound plan.slots).KnowsOnly names [] :=
  made.slots_eq ▸ .unbound names

/-- Asking about a tuple fails only as a call fails or reads a variable early.  A tuple is no answer if
something is read early. -/
theorem Made.answers_reads (made : plan.Made functions base names query)
    (length : tuple.length = query.symbol.arity) :
    Leaves (plan.answers functions tuple) terms (fun success _ => success = true → ¬ query.ReadsEarly)
      fun error _ => query.MayFail functions error := by
  have sameLength : plan.args.length = tuple.length := by
    rw [made.represents.length_eq, made.arity_eq, length]
  let start : Bindings := { terms, substitution := .unbound plan.slots }
  have knows : start.substitution.Knows names {name | name ∈ ([] : List String)} :=
    made.knows.mono (by simp)
  have knowsOnly : start.substitution.KnowsOnly names [] := made.knowsOnly
  have reads := PlanTerm.matchList_reads made.names_nodup plan.args made.represents made.callable
    sameLength knows
  have timely := PlanTerm.matchList_timely plan.args made.represents made.callable sameLength
    knowsOnly
  apply (leaves_answers (reads.and timely)).mono
  · rintro success _ ⟨bindings, rfl, -, succeeds⟩ isSuccess
    exact not_not.mpr (succeeds isSuccess).1
  · rintro _ _ ⟨failure, bindings, rfl, rfl, failed | ⟨early, slot, rfl⟩, -⟩
    · exact .inl failed.raises
    · exact .inr ⟨early, slot, rfl⟩

/-- A query without calls has a tuple as its answer if it describes the tuple.  Nothing is interned to
find this out. -/
theorem Made.answers_of_callFree (made : plan.Made functions base names query)
    (noCall : Term.containsCallList query.args = false) (distinct : terms.Distinct)
    (room : terms.HasRoom) (grown : terms.Extends base) {row : List Value}
    (denotes : terms.DenotesAll tuple row) (length : tuple.length = query.symbol.arity) :
    Leaves (plan.answers functions tuple) terms
      (fun success later => later = terms ∧ (success = true ↔ query.Describes terms tuple))
      fun _ _ => False := by
  have argsLength : query.args.length = tuple.length := made.arity_eq.trans length.symm
  let start : Bindings := { terms, substitution := .unbound plan.slots }
  have callFree := made.represents.callFree noCall
  have represents := made.represents.mono grown (List.prefix_refl names)
  have knows : start.substitution.Knows names ∅ := made.knows
  -- Without calls it does not matter which functions are registered, so that none is.
  have safe := PlanTerm.matchList_safe made.names_nodup plan.args represents callFree
    (made.represents.length_eq.trans argsLength) knows
    (by simp [Term.callVarsList_eq_nil query.args noCall])
  have found := PlanTerm.matchList_leaves (Registry.computes_empty fun _ _ => none)
    made.names_nodup plan.args distinct (Bindings.grounded_unbound terms plan.slots) represents
    denotes argsLength
  rw [← PlanTerm.matchList_eq_of_callFree functions {} plan.args callFree] at safe found
  have kept : Leaves (PlanTerm.matchList functions plan.args tuple) start _ _ :=
    PlanTerm.matchList_keepsTerms plan.args callFree tuple
  apply (leaves_answers ((safe.and found).and kept)).mono
  · rintro success _ ⟨bindings, rfl, ⟨-, matched⟩, same⟩
    have stillRoom : bindings.terms.HasRoom := same ▸ room
    have matched := matched stillRoom
    refine ⟨same, ?_⟩
    constructor
    · intro isSuccess
      obtain ⟨assignment, agrees⟩ := matched.grounded.exists_agrees made.names_nodup
      have evaluated := matched.sound isSuccess assignment agrees
      exact ⟨row, assignment, denotes, (Term.evalList_eq_some_iff_of_callFree noCall).mp evaluated⟩
    · rintro ⟨row', assignment, denotes', written⟩
      obtain rfl : row' = row := denotes'.unique denotes
      apply (matched.complete assignment (Bindings.agrees_unbound _ _ _) ?_).1
      exact (Term.evalList_eq_some_iff_of_callFree noCall).mpr written
  · rintro _ _ ⟨failure, bindings, rfl, rfl, ⟨⟨failed, -⟩, -⟩⟩
    exact Registry.not_raises_empty _ failed.raises

theorem answers_keepsWarrant {warrant : Warrant} (honours : functions.Honours warrant)
    (held : warrant.terms terms) (constants : PlanTerm.Warranted warrant terms plan.args)
    (numbers : ∀ id ∈ tuple, warrant.number terms id) :
    Leaves (plan.answers functions tuple) terms
      (fun _ later => warrant.terms later ∧ later.Extends terms)
      fun _ later => warrant.terms later ∧ later.Extends terms := by
  have start : Bindings.Warranted warrant terms { terms, substitution := .unbound plan.slots } :=
    ⟨held, .refl terms, Substitution.warranted_unbound plan.slots⟩
  apply (leaves_answers (PlanTerm.matchList_vouches honours plan.args start constants numbers)).mono
  · rintro success _ ⟨bindings, rfl, warranted, -⟩
    exact ⟨warranted.terms, warranted.grown⟩
  · rintro _ _ ⟨failure, bindings, rfl, rfl, warranted⟩
    exact ⟨warranted.terms, warranted.grown⟩

end QueryPlan

/-! ## All tuples -/

namespace Evaluation

variable {functions : Registry} {plan : QueryPlan} {terms : TermStore} {tuples : List Tuple}

/-- Asking about one tuple after another keeps what asking about each of them keeps.  The tuples that
are answers stay in their order, and the others are none. -/
theorem leaves_filterAnswers {holds : TermStore → Prop} {isAnswer isNone : Tuple → Prop}
    {stopped : EvalError → TermStore → Prop}
    (asked : ∀ tuple ∈ tuples, ∀ {store}, holds store →
      Leaves (plan.answers functions tuple) store
        (fun success later => holds later ∧ (success = true → isAnswer tuple) ∧
          (success = false → isNone tuple)) stopped)
    (held : holds terms) :
    Leaves (filterAnswers functions plan tuples) terms
      (fun answer later => holds later ∧ answer.Sublist tuples ∧ (∀ tuple ∈ answer, isAnswer tuple) ∧
        ∀ tuple ∈ tuples, tuple ∉ answer → isNone tuple) stopped := by
  induction tuples generalizing terms with
  | nil =>
      unfold filterAnswers
      exact ⟨held, .slnil, by simp⟩
  | cons tuple tuples ih =>
      obtain ⟨here, there⟩ := List.forall_mem_cons.mp asked
      unfold filterAnswers
      apply (here held).bind
      rintro success middle ⟨held, yes, no⟩
      apply (ih there held).bind
      rintro others later ⟨held, sublist, answers, nones⟩
      cases success with
      | true =>
          refine ⟨held, sublist.cons_cons tuple, List.forall_mem_cons.mpr ⟨yes rfl, answers⟩, ?_⟩
          intro other member absent
          obtain ⟨apart, absent⟩ := List.ne_and_not_mem_of_not_mem_cons absent
          exact nones other ((List.mem_cons.mp member).resolve_left apart) absent
      | false =>
          exact ⟨held, sublist.cons tuple, answers, List.forall_mem_cons.mpr
            ⟨fun _ => no rfl, nones⟩⟩

theorem filterAnswers_keepsWarrant {warrant : Warrant} (honours : functions.Honours warrant)
    (held : warrant.terms terms) (constants : PlanTerm.Warranted warrant terms plan.args)
    (numbers : ∀ tuple ∈ tuples, ∀ id ∈ tuple, warrant.number terms id) :
    Leaves (filterAnswers functions plan tuples) terms
      (fun _ later => warrant.terms later ∧ later.Extends terms)
      fun _ later => warrant.terms later ∧ later.Extends terms := by
  have asked : ∀ tuple ∈ tuples, ∀ {store}, warrant.terms store ∧ store.Extends terms →
      Leaves (plan.answers functions tuple) store
        (fun success later => (warrant.terms later ∧ later.Extends terms) ∧
          (success = true → True) ∧ (success = false → True))
        fun _ later => warrant.terms later ∧ later.Extends terms := by
    rintro tuple member store ⟨held, grown⟩
    have kept := QueryPlan.answers_keepsWarrant honours held (constants.mono grown)
      fun id inTuple => warrant.mono grown (numbers tuple member id inTuple)
    exact kept.mono (fun _ _ done => ⟨⟨done.1, done.2.trans grown⟩, fun _ => trivial, fun _ => trivial⟩)
      fun _ _ stopped => ⟨stopped.1, stopped.2.trans grown⟩
  exact (leaves_filterAnswers asked ⟨held, .refl terms⟩).imp_done fun _ _ done => done.1

end Evaluation

end Datalog
