import Datalog.Proofs.Evaluation.Frame

/-!
# Columns of atoms

An atom is matched against a tuple column by column; columns that a lookup has compared and columns
that are ignored are skipped.  What remains is a match of the free columns, and an ignored column holds
a variable that may take any value.
-/

namespace Datalog

variable {meaning : Interpretation} {functions : Registry} {names : List String}

/-! ## Selected columns -/

theorem Term.evalList_keep {assignment : Assignment} {terms : List Term} {values : List Value}
    (evaluated : Term.evalList meaning assignment terms = some values) (wanted : Binding → Bool)
    (pattern : Pattern) :
    Term.evalList meaning assignment (pattern.keep wanted terms) =
      some (pattern.keep wanted values) := by
  induction terms generalizing values pattern with
  | nil =>
      obtain rfl : values = [] := by simpa [Term.evalList, eq_comm] using evaluated
      cases pattern <;> rfl
  | cons term terms ih =>
      obtain ⟨value, rest, termEq, termsEq, rfl⟩ := Term.evalList_cons_eq_some.mp evaluated
      cases pattern with
      | nil => rfl
      | cons binding pattern =>
          simp only [Pattern.keep]
          split
          · exact Term.evalList_cons_eq_some.mpr ⟨value, _, termEq, ih termsEq pattern, rfl⟩
          · exact ih termsEq pattern

theorem TermStore.DenotesAll.keep {store : TermStore} {ids : List TermId} {values : List Value}
    (denotes : store.DenotesAll ids values) (wanted : Binding → Bool) (pattern : Pattern) :
    store.DenotesAll (pattern.keep wanted ids) (pattern.keep wanted values) := by
  induction ids generalizing values pattern with
  | nil =>
      cases values with
      | nil => cases pattern <;> trivial
      | cons => simp [TermStore.DenotesAll] at denotes
  | cons id ids ih =>
      cases values with
      | nil => simp [TermStore.DenotesAll] at denotes
      | cons value values =>
          cases pattern with
          | nil => trivial
          | cons binding pattern =>
              simp only [Pattern.keep]
              split
              · exact ⟨denotes.1, ih denotes.2 pattern⟩
              · exact ih denotes.2 pattern

theorem Term.evalList_update {args : List Term} {name : String} (absent : name ∉ varsList args)
    {assignment : Assignment} (value : Value) :
    evalList meaning (fun name' => if name' = name then value else assignment name') args =
      evalList meaning assignment args := by
  refine evalList_congr args fun name' occurs => ?_
  have : name' ≠ name := by
    rintro rfl
    exact absent occurs
  simp [this]

/-- A variable that occurs in the first column and once in all does not occur in the others. -/
theorem Term.not_mem_varsList_of_once {count : String → Nat} {arg : Term} {args : List Term}
    (counted : ∀ name, (varsList (arg :: args)).count name ≤ count name) {name : String}
    (here : name ∈ arg.vars) (once : count name = 1) : name ∉ varsList args := by
  intro there
  have total := counted name
  rw [varsList, List.count_append] at total
  have := List.count_pos_iff.mpr here
  have := List.count_pos_iff.mpr there
  omega

/-- What the bound and the free columns say of the first column and of the others. -/
theorem Term.evalList_columns_cons {assignment : Assignment} {arg : Term} {args : List Term}
    {binding : Binding} {pattern : Pattern} {value : Value} {values : List Value}
    (bound : evalList meaning assignment (Pattern.keepBound (binding :: pattern) (arg :: args)) =
      some (Pattern.keepBound (binding :: pattern) (value :: values)))
    (free : evalList meaning assignment (Pattern.keepFree (binding :: pattern) (arg :: args)) =
      some (Pattern.keepFree (binding :: pattern) (value :: values))) :
    (binding ≠ .ignored → arg.eval meaning assignment = some value) ∧
      evalList meaning assignment (pattern.keepBound args) = some (pattern.keepBound values) ∧
        evalList meaning assignment (pattern.keepFree args) = some (pattern.keepFree values) := by
  cases binding with
  | bound =>
      obtain ⟨value', values', argEq, boundEq, same⟩ :=
        evalList_cons_eq_some.mp (by simpa [Pattern.keepBound, Pattern.keep] using bound)
      obtain ⟨rfl, rfl⟩ := List.cons.inj same
      exact ⟨fun _ => argEq, boundEq, by simpa [Pattern.keepFree, Pattern.keep] using free⟩
  | free =>
      obtain ⟨value', values', argEq, freeEq, same⟩ :=
        evalList_cons_eq_some.mp (by simpa [Pattern.keepFree, Pattern.keep] using free)
      obtain ⟨rfl, rfl⟩ := List.cons.inj same
      exact ⟨fun _ => argEq, by simpa [Pattern.keepBound, Pattern.keep] using bound, freeEq⟩
  | ignored =>
      exact ⟨fun shown => absurd rfl shown,
        by simpa [Pattern.keepBound, Pattern.keep] using bound,
        by simpa [Pattern.keepFree, Pattern.keep] using free⟩

/-- Terms with the right values in the bound and the free columns have the right values throughout
once the variables of the ignored columns are given suitable values. -/
theorem exists_evalList_of_columns {count : String → Nat} {assignment : Assignment}
    {args : List Term} {pattern : Pattern} {values : List Value}
    (length : args.length = pattern.length) (length' : values.length = pattern.length)
    (ignored : ∀ arg, (arg, Binding.ignored) ∈ args.zip pattern →
      ∃ name, arg = .var name ∧ count name = 1)
    (counted : ∀ name, (Term.varsList args).count name ≤ count name)
    (bound : Term.evalList meaning assignment (pattern.keepBound args) =
      some (pattern.keepBound values))
    (free : Term.evalList meaning assignment (pattern.keepFree args) =
      some (pattern.keepFree values)) :
    ∃ other, assignment.AgreesUpTo count other ∧
      (∀ name, name ∉ Term.varsList args → assignment name = other name) ∧
        Term.evalList meaning other args = some values := by
  induction args generalizing pattern values with
  | nil =>
      obtain rfl : pattern = [] := List.length_eq_zero_iff.mp length.symm
      obtain rfl : values = [] := List.length_eq_zero_iff.mp length'
      exact ⟨assignment, fun _ _ => rfl, fun _ _ => rfl, rfl⟩
  | cons arg args ih =>
      obtain ⟨binding, pattern, rfl⟩ := List.exists_cons_of_length_eq_add_one length.symm
      obtain ⟨value, values, rfl⟩ := List.exists_cons_of_length_eq_add_one length'
      obtain ⟨argEq, boundRest, freeRest⟩ := Term.evalList_columns_cons bound free
      have apart : ∀ name ∈ arg.vars, count name = 1 → name ∉ Term.varsList args :=
        fun _ => Term.not_mem_varsList_of_once counted
      simp only [Term.varsList, List.count_append, List.mem_append, not_or] at counted ⊢
      obtain ⟨other, agrees, outside, argsEq⟩ := ih (by simpa using length) (by simpa using length')
        (fun arg member => ignored arg (List.mem_cons_of_mem _ member))
        (fun name => Nat.le_trans (Nat.le_add_left _ _) (counted name)) boundRest freeRest
      by_cases isIgnored : binding = .ignored
      · -- The variable of an ignored column takes the value of this column.
        subst isIgnored
        obtain ⟨name, rfl, once⟩ := ignored arg (by simp)
        have absent := apart name (by simp [Term.vars]) once
        refine ⟨fun name' => if name' = name then value else other name', ?_, ?_, ?_⟩
        · intro name' often
          have : name' ≠ name := by
            rintro rfl
            exact often once
          simpa [this] using agrees name' often
        · rintro name' ⟨notHere, notThere⟩
          have : name' ≠ name := by simpa [Term.vars] using notHere
          simpa [this] using outside name' notThere
        · refine Term.evalList_cons_eq_some.mpr ⟨value, values, by simp [Term.eval], ?_, rfl⟩
          rw [← argsEq]
          exact Term.evalList_update absent value
      · -- No variable of this column is given another value in the other columns.
        refine ⟨other, agrees, fun name absent => outside name absent.2, ?_⟩
        refine Term.evalList_cons_eq_some.mpr ⟨value, values, ?_, argsEq, rfl⟩
        rw [← argEq isIgnored]
        refine Term.eval_congr arg fun name here => ?_
        by_cases once : count name = 1
        · exact (outside name (apart name here once)).symm
        · exact (agrees name once).symm

/-! ## Comparing columns -/

/-- The columns that are compared with a tuple. -/
def compared (checkBound : Bool) (binding : Binding) : Bool :=
  binding = .free || (binding = .bound && checkBound)

/-- Matching columns is matching those that are compared. -/
theorem matchColumns_eq {checkBound : Bool} {args : List PlanTerm} {pattern : Pattern}
    {tuple : Tuple} (length : args.length = pattern.length)
    (length' : tuple.length = pattern.length) :
    matchColumns functions checkBound args pattern tuple =
      PlanTerm.matchList functions (pattern.keep (compared checkBound) args)
        (pattern.keep (compared checkBound) tuple) := by
  induction args generalizing pattern tuple with
  | nil =>
      obtain rfl : pattern = [] := List.length_eq_zero_iff.mp length.symm
      simp [matchColumns, Pattern.keep, PlanTerm.matchList]
  | cons arg args ih =>
      obtain ⟨binding, pattern, rfl⟩ := List.exists_cons_of_length_eq_add_one length.symm
      obtain ⟨id, tuple, rfl⟩ := List.exists_cons_of_length_eq_add_one length'
      have rest := ih (by simpa using length) (by simpa using length')
      unfold matchColumns
      by_cases comparing : compared checkBound binding
      · have noSkip : (decide (binding = .ignored) || (decide (binding = .bound) && !checkBound)) =
            false := by
          cases binding <;> cases checkBound <;> simp_all [compared]
        simp only [noSkip, Pattern.keep, comparing, if_true, PlanTerm.matchList, rest]
        rfl
      · have skip : (decide (binding = .ignored) || (decide (binding = .bound) && !checkBound)) =
            true := by
          cases binding <;> cases checkBound <;> simp_all [compared]
        simp only [skip, Pattern.keep, comparing, if_true, rest]
        rfl

/-- Matching the columns of an atom finds the assignments under which the compared columns have the
values of the tuple. -/
theorem matchColumns_leaves (computes : functions.Computes meaning) (distinctNames : names.Nodup)
    (checkBound : Bool) {bindings : Bindings} (distinct : bindings.terms.Distinct)
    (grounded : bindings.Grounded) {args : List PlanTerm} {terms : List Term}
    (represents : PlanTerm.RepresentsAll bindings.terms names args terms) {pattern : Pattern}
    (length : terms.length = pattern.length) {tuple : Tuple} (length' : tuple.length = pattern.length)
    {row : List Value} (denotes : bindings.terms.DenotesAll tuple row) :
    LeavesWithRoom (matchColumns functions checkBound args pattern tuple) bindings
      (fun success later => Bindings.Matched names bindings later success
        (fun assignment => Term.evalList meaning assignment
          (pattern.keep (compared checkBound) terms) = some (pattern.keep (compared checkBound) row))
        (fun assignment => Term.evalList meaning assignment
          (pattern.keep (compared checkBound) terms) = some (pattern.keep (compared checkBound) row)))
      fun _ later => later.terms.Distinct := by
  rw [matchColumns_eq (represents.length_eq.trans length) length']
  exact PlanTerm.matchList_leaves computes distinctNames
    (pattern.keep (compared checkBound) args) distinct grounded (represents.keep _ pattern)
    (denotes.keep _ pattern) (Pattern.length_keep length length')

theorem keep_compared_false {α : Type} (pattern : Pattern) (row : List α) :
    pattern.keep (compared false) row = pattern.keepFree row := by
  have : compared false = fun binding => decide (binding = .free) := by
    funext binding
    simp [compared]
  rw [this]
  rfl

/-- If all columns but the ignored ones are compared, the bound and the free ones are. -/
theorem columns_of_compared_true {assignment : Assignment} {terms : List Term} {pattern : Pattern}
    {row : List Value} (length : terms.length = pattern.length)
    (length' : row.length = pattern.length)
    (evaluated : Term.evalList meaning assignment (pattern.keep (compared true) terms) =
      some (pattern.keep (compared true) row)) :
    Term.evalList meaning assignment (pattern.keepBound terms) = some (pattern.keepBound row) ∧
      Term.evalList meaning assignment (pattern.keepFree terms) = some (pattern.keepFree row) := by
  induction terms generalizing pattern row with
  | nil =>
      obtain rfl : pattern = [] := List.length_eq_zero_iff.mp length.symm
      exact ⟨rfl, rfl⟩
  | cons term terms ih =>
      match pattern, row, length, length' with
      | binding :: pattern, value :: row, length, length' =>
      have rest := fun evaluated =>
        ih (by simpa using length) (by simpa using length') evaluated
      simp only [Pattern.keep, Pattern.keepBound, Pattern.keepFree] at evaluated rest ⊢
      cases binding with
      | ignored => simpa [compared] using rest (by simpa [compared] using evaluated)
      | bound =>
          obtain ⟨value', values', termEq, restEq, same⟩ :=
            Term.evalList_cons_eq_some.mp (by simpa [compared] using evaluated)
          obtain ⟨rfl, rfl⟩ := List.cons.inj same
          obtain ⟨boundEq, freeEq⟩ := rest restEq
          refine ⟨?_, by simpa using freeEq⟩
          simpa using Term.evalList_cons_eq_some.mpr ⟨value, _, termEq, boundEq, rfl⟩
      | free =>
          obtain ⟨value', values', termEq, restEq, same⟩ :=
            Term.evalList_cons_eq_some.mp (by simpa [compared] using evaluated)
          obtain ⟨rfl, rfl⟩ := List.cons.inj same
          obtain ⟨boundEq, freeEq⟩ := rest restEq
          refine ⟨by simpa using boundEq, ?_⟩
          simpa using Term.evalList_cons_eq_some.mpr ⟨value, _, termEq, freeEq, rfl⟩

end Datalog
