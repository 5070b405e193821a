import Datalog.Proofs.Evaluation.Call

/-!
# What a ground term comes to

The terms of base facts are evaluated from left to right, and the first failure ends the evaluation.
Where the results and the failures of functions depend on the structure of the arguments alone, a term
has one answer, a value or an error, which is found in whatever store the term is evaluated.
-/

namespace Datalog

/-- The value or the error that a computation ends with. -/
def answerOf {ε σ α : Type} : EStateM.Result ε σ α → Except ε α
  | .ok value _ => .ok value
  | .error error _ => .error error

/-- The state that a computation leaves. -/
def leftBy {ε σ α : Type} : EStateM.Result ε σ α → σ
  | .ok _ state | .error _ state => state

/-- What the functions of each name make of values: a value or a failure. -/
abbrev Behaviour := String → List Value → Except EvalError Value

/-- The results and the failures of a registry depend on the structure of the arguments alone. -/
def Registry.Follows (functions : Registry) (behaviour : Behaviour) : Prop :=
  ∀ (name : String) (store : TermStore) (ids : List TermId) (values : List Value),
    store.Distinct → store.DenotesAll ids values →
      LeavesWithRoom (functions.call name ids) store
        (Yields fun value => behaviour name values = .ok value)
        fun error later => later.Distinct ∧ behaviour name values = .error error

namespace Term

/-! ## Answers -/

mutual

/-- The answer of a term, if its functions behave as given. -/
def answer (behaviour : Behaviour) : Term → Except EvalError Value
  | .var name => .error (.nonGround name)
  | .bool value => .ok (.bool value)
  | .int value => .ok (.int value)
  | .str value => .ok (.str value)
  | .ctor name args => (answerList behaviour args).map (.ctor name)
  | .call function args => (answerList behaviour args).bind (behaviour function)

/-- The answers of several terms, or the error of the first that has none. -/
def answerList (behaviour : Behaviour) : List Term → Except EvalError (List Value)
  | [] => .ok []
  | term :: terms =>
      (answer behaviour term).bind fun value => (answerList behaviour terms).map (value :: ·)

end

variable {functions : Registry} {behaviour : Behaviour}

theorem length_of_answerList {terms : List Term} {values : List Value}
    (answer : answerList behaviour terms = .ok values) : values.length = terms.length := by
  induction terms generalizing values with
  | nil =>
      cases answer
      rfl
  | cons term terms ih =>
      unfold answerList at answer
      cases first : Term.answer behaviour term with
      | error => simp [first, Except.bind] at answer
      | ok value =>
          cases rest : answerList behaviour terms with
          | error => simp [first, rest, Except.bind, Except.map] at answer
          | ok others =>
              obtain rfl : value :: others = values := by
                simpa [first, rest, Except.bind, Except.map] using answer
              simp [ih rest]

mutual

theorem normalize_answers (follows : functions.Follows behaviour) :
    (term : Term) → {store : TermStore} → store.Distinct →
      LeavesWithRoom (term.normalize functions) store
        (Yields fun value => term.answer behaviour = .ok value)
        fun error later => later.Distinct ∧ term.answer behaviour = .error error
  | .var name, _, distinct => by
      unfold normalize
      exact .throw ⟨distinct, rfl⟩
  | .bool value, _, distinct => by
      unfold normalize
      exact fun room => ⟨distinct.intern _, _, rfl, TermStore.resolve_intern room⟩
  | .int value, _, distinct => by
      unfold normalize
      exact fun room => ⟨distinct.intern _, _, rfl, TermStore.resolve_intern room⟩
  | .str value, _, distinct => by
      unfold normalize
      exact fun room => ⟨distinct.intern _, _, rfl, TermStore.resolve_intern room⟩
  | .ctor name args, _, distinct => by
      unfold normalize
      have answered := normalizeList_answers follows args distinct
      refine .bind (answered.mono (fun _ _ => id) ?_) (fun _ => interns_internTerm _) ?_
      · rintro error later ⟨distinct, failed⟩
        exact ⟨distinct, by simp [answer, failed, Except.map]⟩
      · rintro ids middle ⟨distinct, values, valuesEq, denotes⟩
        exact fun room => ⟨distinct.intern _, _, by simp [answer, valuesEq, Except.map],
          TermStore.denotes_intern_ctor denotes room⟩
  | .call function args, _, distinct => by
      unfold normalize
      have answered := normalizeList_answers follows args distinct
      refine .bind (answered.mono (fun _ _ => id) ?_) (fun _ => functions.interns_call _ _) ?_
      · rintro error later ⟨distinct, failed⟩
        exact ⟨distinct, by simp [answer, failed, Except.bind]⟩
      · rintro ids middle ⟨distinct, values, valuesEq, denotes⟩
        simpa [answer, valuesEq, Except.bind] using follows function middle ids values distinct denotes

theorem normalizeList_answers (follows : functions.Follows behaviour) :
    (terms : List Term) → {store : TermStore} → store.Distinct →
      LeavesWithRoom (normalizeList functions terms) store
        (fun ids later => later.Distinct ∧ ∃ values, answerList behaviour terms = .ok values ∧
          later.DenotesAll ids values)
        fun error later => later.Distinct ∧ answerList behaviour terms = .error error
  | [], _, distinct => by
      unfold normalizeList
      exact .pure ⟨distinct, [], rfl, trivial⟩
  | term :: terms, _, distinct => by
      unfold normalizeList
      have answered := normalize_answers follows term distinct
      refine .bind (answered.mono (fun _ _ => id) ?_)
        (fun _ => .bind (interns_normalizeList functions terms) fun _ => .pure) ?_
      · rintro error later ⟨distinct, failed⟩
        exact ⟨distinct, by simp [answerList, failed, Except.bind]⟩
      · rintro id middle ⟨distinct, value, valueEq, denotes⟩
        have others := (normalizeList_answers follows terms distinct).grown
          (interns_normalizeList functions terms)
        refine .bind (others.mono (fun _ _ both => both) ?_) (fun _ => .pure) ?_
        · rintro error later ⟨⟨distinct, failed⟩, -⟩
          exact ⟨distinct, by simp [answerList, valueEq, failed, Except.bind, Except.map]⟩
        · rintro ids later ⟨⟨distinct, values, valuesEq, denotesRest⟩, grown⟩
          refine .pure ⟨distinct, value :: values, ?_, denotes.mono grown, denotesRest⟩
          simp [answerList, valueEq, valuesEq, Except.bind, Except.map]

end

/-- A term has the same answer in two stores, as far as a store that both have grown into can tell. -/
theorem normalize_agree (follows : functions.Follows behaviour) (term : Term)
    {first second joint : TermStore} (distinct : first.Distinct) (distinct' : second.Distinct)
    (distinctJoint : joint.Distinct) (room : joint.HasRoom)
    (grown : joint.Extends (leftBy (term.normalize functions first)))
    (grown' : joint.Extends (leftBy (term.normalize functions second))) :
    answerOf (term.normalize functions first) = answerOf (term.normalize functions second) := by
  have answers := normalize_answers follows term distinct
  have answers' := normalize_answers follows term distinct'
  cases outcome : term.normalize functions first with
  | ok id later =>
      rw [outcome] at grown
      obtain ⟨-, value, valueEq, denotes⟩ := answers.of_ok outcome (grown.hasRoom room)
      cases outcome' : term.normalize functions second with
      | ok id' later' =>
          rw [outcome'] at grown'
          obtain ⟨-, value', valueEq', denotes'⟩ := answers'.of_ok outcome' (grown'.hasRoom room)
          obtain rfl := Except.ok.inj (valueEq.symm.trans valueEq')
          exact congrArg Except.ok ((denotes.mono grown).injective distinctJoint (denotes'.mono grown'))
      | error error later' =>
          rw [outcome'] at grown'
          have failed := (answers'.of_error outcome' (grown'.hasRoom room)).2
          rw [valueEq] at failed
          cases failed
  | error error later =>
      rw [outcome] at grown
      have failed := (answers.of_error outcome (grown.hasRoom room)).2
      cases outcome' : term.normalize functions second with
      | ok id' later' =>
          rw [outcome'] at grown'
          obtain ⟨-, value', valueEq', -⟩ := answers'.of_ok outcome' (grown'.hasRoom room)
          rw [valueEq'] at failed
          cases failed
      | error error' later' =>
          rw [outcome'] at grown'
          have failed' := (answers'.of_error outcome' (grown'.hasRoom room)).2
          exact congrArg Except.error (Except.error.inj (failed.symm.trans failed'))

end Term

end Datalog
