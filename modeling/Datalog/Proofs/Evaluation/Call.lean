import Datalog.Proofs.Evaluation.Growth
import Datalog.Proofs.Semantics.Meaning

/-!
# Calls

A registry that computes an interpretation returns, for arguments that denote values, a number that
denotes what the interpretation makes of them.
-/

namespace Datalog

open TermStore

variable {meaning : Interpretation}

/-- A condition on a number and the store that it belongs to: the number denotes a value. -/
def Yields (expected : Value → Prop) (id : TermId) (store : TermStore) : Prop :=
  store.Distinct ∧ ∃ value, expected value ∧ store.Denotes id value

theorem internTerm_leaves {store : TermStore} (distinct : store.Distinct) (term : GroundTerm) :
    LeavesWithRoom (internTerm term) store
      (fun id later => later.Distinct ∧ later.resolve id = some term ∧ later.Extends store)
      (fun _ later => later.Distinct) :=
  fun room => ⟨distinct.intern term, resolve_intern room, extends_intern store term⟩

theorem internTerm_bool {store : TermStore} (distinct : store.Distinct) (bit : Bool) :
    LeavesWithRoom (internTerm (.bool bit)) store (Yields (· = .bool bit))
      (fun _ later => later.Distinct) :=
  (internTerm_leaves distinct (.bool bit)).mono
    (fun _ _ leaves => ⟨leaves.1, _, rfl, leaves.2.1⟩) fun _ _ leaves => leaves

theorem internTerm_ctor {store : TermStore} (distinct : store.Distinct) (name : String)
    {args : List TermId} {values : List Value} (denotes : store.DenotesAll args values) :
    LeavesWithRoom (internTerm (.ctor name args)) store (Yields (· = .ctor name values))
      (fun _ later => later.Distinct) :=
  (internTerm_leaves distinct (.ctor name args)).mono
    (fun _ _ leaves => ⟨leaves.1, _, rfl, args, leaves.2.1, denotes.mono leaves.2.2⟩)
    fun _ _ leaves => leaves

/-- A function returns numbers that denote values that are allowed for the values of its arguments. -/
def Function.Answers (function : Function) (allowed : List Value → Value → Prop) : Prop :=
  ∀ (store : TermStore) (args : List TermId) (values : List Value),
    store.Distinct → store.DenotesAll args values →
      (function.apply store args).2.Distinct ∧
        ∀ id, (function.apply store args).1 = .ok id → (function.apply store args).2.HasRoom →
          ∃ value, allowed values value ∧ (function.apply store args).2.Denotes id value

/-- A solver gives answers that are allowed for the formula. -/
def Solver.Answers (solver : Solver) (allowed : Value → SolverAnswer → Prop) : Prop :=
  ∀ (store : TermStore) (assertion : TermId) (value : Value),
    store.Distinct → store.Denotes assertion value →
      (solver.check store assertion).2.Distinct ∧
        ∀ answer, (solver.check store assertion).1 = .ok answer →
          (solver.check store assertion).2.HasRoom → allowed value answer

/-- What is registered under a name gives values that are allowed. -/
def Registered.Answers (registered : Registered) (allowed : List Value → Value → Prop) : Prop :=
  match registered with
  | .native function => function.Answers allowed
  | .solverCheck solver negate =>
      ∃ verdicts, solver.Answers verdicts ∧ ∀ formula answer truth,
        verdicts (formula.question negate) answer → answer.truth negate = some truth →
          allowed [formula] truth

theorem Registered.Computes.answers {registered : Registered}
    {meaning : List Value → Option Value} (computes : registered.Computes meaning) :
    registered.Answers fun values value => meaning values = some value := by
  cases registered with
  | native function => exact computes
  | solverCheck solver negate =>
      obtain ⟨verdict, decides, meaningEq⟩ := computes
      refine ⟨fun formula answer => verdict formula = some answer, decides, ?_⟩
      intro formula answer truth isVerdict truthEq
      rw [meaningEq, isVerdict]
      exact truthEq

namespace Registry

theorem settle_leaves {α : Type} {describe : String → EvalError}
    {outcome : TermStore → Except Fault α × TermStore} {store : TermStore}
    {done : α → TermStore → Prop} (distinct : (outcome store).2.Distinct)
    (isDone : ∀ value, (outcome store).1 = .ok value → (outcome store).2.HasRoom →
      done value (outcome store).2) :
    LeavesWithRoom (fun store => settle describe (outcome store)) store
      (fun value later => later.Distinct ∧ done value later) (fun _ later => later.Distinct) := by
  unfold LeavesWithRoom Leaves
  dsimp only
  cases outcomeEq : outcome store with
  | mk result later =>
      rw [outcomeEq] at distinct isDone
      cases result with
      | ok value => exact fun room => ⟨distinct, isDone value rfl room⟩
      | error fault => exact fun _ => distinct

theorem askSolver_leaves {solver : Solver} {allowed : Value → SolverAnswer → Prop}
    (answers : solver.Answers allowed) {store : TermStore} (distinct : store.Distinct)
    (name : String) (negate : Bool) {formula : TermId} {value : Value}
    (denotes : store.Denotes formula value) :
    LeavesWithRoom (askSolver name solver negate [formula]) store
      (Yields fun truth =>
        ∃ answer, allowed (value.question negate) answer ∧ answer.truth negate = some truth)
      (fun _ later => later.Distinct) := by
  unfold askSolver
  extract_lets answering
  -- The same is done with the formula and with its negation.
  have answered : ∀ assertion later, later.Distinct →
      later.Denotes assertion (value.question negate) →
      LeavesWithRoom (answering assertion) later
        (Yields fun truth =>
          ∃ answer, allowed (value.question negate) answer ∧ answer.truth negate = some truth)
        (fun _ later => later.Distinct) := by
    intro assertion later distinct denotes
    obtain ⟨distinctAfter, isAllowed⟩ := answers later assertion _ distinct denotes
    have checked : LeavesWithRoom
        (fun store => settle (.solver name) (solver.check store assertion)) later
        (fun answer last => last.Distinct ∧ allowed (value.question negate) answer)
        (fun _ last => last.Distinct) :=
      settle_leaves distinctAfter isAllowed
    refine .bind checked ?_ ?_
    · intro answer
      cases answer with
      | sat | unsat => exact interns_internTerm _
      | unknown => exact .throw
    · rintro answer last ⟨distinctLast, isAllowed⟩
      cases answer with
      | sat | unsat =>
          refine (internTerm_bool distinctLast _).mono ?_ fun _ _ leaves => leaves
          rintro id last ⟨distinctLast, _, rfl, denotesLast⟩
          exact ⟨distinctLast, _, ⟨_, isAllowed, rfl⟩, denotesLast⟩
      | unknown => exact .throw distinctLast
  have interns : ∀ assertion, Interns (answering assertion) := by
    intro assertion
    refine .bind (interns_settle _ fun store => solver.extends_check store assertion) fun answer => ?_
    cases answer with
    | sat | unsat => exact interns_internTerm _
    | unknown => exact .throw
  cases negate with
  | true =>
      have denotesArgs : store.DenotesAll [formula] [value] := ⟨denotes, trivial⟩
      refine .bind (internTerm_ctor distinct "not" denotesArgs) interns ?_
      rintro assertion later ⟨distinctLater, _, rfl, denotesLater⟩
      exact answered assertion later distinctLater denotesLater
  | false => exact answered formula store distinct denotes

/-- A call returns a number that denotes one of the values that what is registered may give. -/
theorem call_answers {functions : Registry} {name : String} {allowed : List Value → Value → Prop}
    (answers : ∀ registered, functions.find? name = some registered → registered.Answers allowed)
    {store : TermStore} (distinct : store.Distinct) {args : List TermId} {values : List Value}
    (denotes : store.DenotesAll args values) :
    LeavesWithRoom (functions.call name args) store (Yields (allowed values))
      (fun _ later => later.Distinct) := by
  unfold call
  split
  · exact .throw distinct
  · next function found =>
      have answers : function.Answers allowed := answers _ found
      obtain ⟨distinctAfter, result⟩ := answers store args values distinct denotes
      exact settle_leaves distinctAfter result
  · next solver negate found =>
      obtain ⟨verdicts, answers, isAllowed⟩ := answers _ found
      match args, values, denotes with
      | [formula], [value], denotes =>
          refine (askSolver_leaves answers distinct name negate denotes.1).mono ?_
            fun _ _ leaves => leaves
          rintro id later ⟨distinctLater, truth, ⟨answer, isVerdict, truthEq⟩, denotesLater⟩
          exact ⟨distinctLater, truth, isAllowed value answer truth isVerdict truthEq, denotesLater⟩
      | [], _, _ => exact .throw distinct
      | _ :: _ :: _, _, _ => exact .throw distinct

theorem call_leaves {functions : Registry} (computes : functions.Computes meaning)
    {store : TermStore} (distinct : store.Distinct) (name : String) {args : List TermId}
    {values : List Value} (denotes : store.DenotesAll args values) :
    LeavesWithRoom (functions.call name args) store
      (Yields fun value => meaning name values = some value) (fun _ later => later.Distinct) :=
  call_answers (fun registered found => (computes name registered found).answers) distinct denotes

end Registry

end Datalog
