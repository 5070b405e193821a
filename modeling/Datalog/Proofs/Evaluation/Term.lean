import Datalog.Proofs.Evaluation.Call
import Datalog.Proofs.Evaluation.Substitution
import Datalog.Proofs.Store.Index

/-!
# Evaluating planned terms

A planned term stands for a term: its slots for variables and its constants for values written out.
Evaluating it returns a number that denotes the value of the term under every assignment that agrees
with the bindings.
-/

namespace Datalog

variable {meaning : Interpretation} {functions : Registry} {names : List String}

namespace PlanTerm

mutual

/-- What a planned term stands for, given the names of the slots.  Once the terms have run full, the
numbers of constants may be anything. -/
def Represents (store : TermStore) (names : List String) : PlanTerm → Term → Prop
  | .slot number, term => ∃ name, term = .var name ∧ names[number]? = some name
  | .const id, term => ∃ value : Value, term = value.toTerm ∧
      (store.HasRoom → store.Denotes id value)
  | .ctor name args, term => ∃ terms, term = .ctor name terms ∧
      RepresentsAll store names args terms
  | .call function args, term => ∃ terms, term = .call function terms ∧
      RepresentsAll store names args terms

/-- What several planned terms stand for, one for one. -/
def RepresentsAll (store : TermStore) (names : List String) : List PlanTerm → List Term → Prop
  | [], terms => terms = []
  | plan :: plans, terms => ∃ term rest, terms = term :: rest ∧
      Represents store names plan term ∧ RepresentsAll store names plans rest

end

variable {store later : TermStore} {moreNames : List String}

mutual

theorem Represents.mono (grown : later.Extends store) (named : names <+: moreNames) :
    {plan : PlanTerm} → {term : Term} → plan.Represents store names term →
      plan.Represents later moreNames term
  | .slot number, _, represents => by
      obtain ⟨name, rfl, atSlot⟩ := represents
      obtain ⟨added, rfl⟩ := named
      have inside := (List.getElem?_eq_some_iff.mp atSlot).1
      exact ⟨name, rfl, by rwa [List.getElem?_append_left inside]⟩
  | .const id, _, represents => by
      obtain ⟨value, rfl, denotes⟩ := represents
      exact ⟨value, rfl, fun room => (denotes (grown.hasRoom room)).mono grown⟩
  | .ctor name args, _, represents => by
      obtain ⟨terms, rfl, all⟩ := represents
      exact ⟨terms, rfl, RepresentsAll.mono grown named all⟩
  | .call function args, _, represents => by
      obtain ⟨terms, rfl, all⟩ := represents
      exact ⟨terms, rfl, RepresentsAll.mono grown named all⟩

theorem RepresentsAll.mono (grown : later.Extends store) (named : names <+: moreNames) :
    {plans : List PlanTerm} → {terms : List Term} → RepresentsAll store names plans terms →
      RepresentsAll later moreNames plans terms
  | [], _, all => all
  | plan :: plans, _, all => by
      obtain ⟨term, rest, rfl, first, others⟩ := all
      exact ⟨term, rest, rfl, Represents.mono grown named first,
        RepresentsAll.mono grown named others⟩

end

theorem RepresentsAll.length_eq {plans : List PlanTerm} {terms : List Term}
    (all : RepresentsAll store names plans terms) : plans.length = terms.length := by
  induction plans generalizing terms with
  | nil => simp [show terms = [] from all]
  | cons plan plans ih =>
      obtain ⟨term, rest, rfl, -, others⟩ := all
      simp [ih others]

/-- Columns that are left out are left out on both sides. -/
theorem RepresentsAll.keep {plans : List PlanTerm} {terms : List Term}
    (all : RepresentsAll store names plans terms) (wanted : Binding → Bool) (pattern : Pattern) :
    RepresentsAll store names (pattern.keep wanted plans) (pattern.keep wanted terms) := by
  induction plans generalizing terms pattern with
  | nil =>
      obtain rfl : terms = [] := all
      cases pattern <;> simp [Pattern.keep, RepresentsAll]
  | cons plan plans ih =>
      obtain ⟨term, rest, rfl, first, others⟩ := all
      cases pattern with
      | nil => simp [Pattern.keep, RepresentsAll]
      | cons binding pattern =>
          simp only [Pattern.keep]
          split
          · exact ⟨term, _, rfl, first, ih others pattern⟩
          · exact ih others pattern

end PlanTerm

/-! ## Evaluation -/

/-- Bindings after an evaluation: terms were interned, and no slot was bound. -/
structure Bindings.Settled (later bindings : Bindings) : Prop where
  distinct : later.terms.Distinct
  grown : later.terms.Extends bindings.terms
  same : later.substitution = bindings.substitution

theorem Bindings.Settled.extends {later bindings : Bindings} (settled : later.Settled bindings) :
    later.Extends bindings :=
  ⟨settled.grown, settled.same ▸ .refl _⟩

theorem Bindings.Settled.trans {first second third : Bindings} (right : third.Settled second)
    (left : second.Settled first) : third.Settled first :=
  ⟨right.distinct, right.grown.trans left.grown, right.same.trans left.same⟩

theorem BindM.ofTermM_leaves {α : Type} {computation : TermM α} {bindings : Bindings}
    {done : α → TermStore → Prop} {stopped : EvalError → TermStore → Prop}
    (leaves : LeavesWithRoom computation bindings.terms done stopped) :
    LeavesWithRoom (BindM.ofTermM computation) bindings
      (fun value later => done value later.terms ∧ later.substitution = bindings.substitution)
      (fun _ later => ∃ error, stopped error later.terms) := by
  unfold LeavesWithRoom Leaves at leaves ⊢
  unfold BindM.ofTermM
  cases outcome : computation bindings.terms with
  | ok value terms =>
      rw [outcome] at leaves
      exact fun room => ⟨leaves room, rfl⟩
  | error error terms =>
      rw [outcome] at leaves
      exact fun room => ⟨error, leaves room⟩

theorem BindM.slotValue_leaves {bindings : Bindings} (number : Nat)
    {done : Option TermId → Bindings → Prop} {stopped : TaskError → Bindings → Prop}
    (isDone : ∀ value, bindings.substitution.slots[number]? = some value → done value bindings)
    (isStopped : ∀ error, stopped error bindings) :
    LeavesWithRoom (BindM.slotValue number) bindings done stopped := by
  refine .get_bind ?_
  dsimp only
  split
  · next value atSlot => exact .pure (isDone value atSlot)
  · exact .throw (isStopped _)

namespace PlanTerm

/-- A term is computed from the values of its arguments, which are the same for all assignments that
agree. -/
theorem ofArgs_leaves (distinctNames : names.Nodup) {plans : List PlanTerm} {terms : List Term}
    {term : Term} {bindings : Bindings} (grounded : bindings.Grounded)
    {step : List TermId → TermM TermId} {allowed : List Value → Value → Prop}
    (args : LeavesWithRoom (evalList functions plans) bindings
      (fun ids later => later.Settled bindings ∧ ∀ assignment, bindings.Agrees names assignment →
        ∃ values, Term.evalList meaning assignment terms = some values ∧
          later.terms.DenotesAll ids values)
      (fun _ later => later.terms.Distinct))
    (interns : ∀ ids, Interns (step ids))
    (yields : ∀ {store : TermStore} {ids : List TermId} {values : List Value}, store.Distinct →
      store.DenotesAll ids values →
        LeavesWithRoom (step ids) store (Yields (allowed values)) (fun _ later => later.Distinct))
    (evalEq : ∀ assignment values value, Term.evalList meaning assignment terms = some values →
      allowed values value → term.eval meaning assignment = some value) :
    LeavesWithRoom
      (do
        let ids ← evalList functions plans
        BindM.ofTermM (step ids))
      bindings
      (fun id later => later.Settled bindings ∧ ∀ assignment, bindings.Agrees names assignment →
        ∃ value, term.eval meaning assignment = some value ∧ later.terms.Denotes id value)
      (fun _ later => later.terms.Distinct) := by
  refine .bind args (fun ids => BindM.interns_ofTermM (interns ids)) ?_
  rintro ids middle ⟨settled, evaluated⟩
  obtain ⟨witness, witnessAgrees⟩ := grounded.exists_agrees distinctNames
  obtain ⟨values, -, denotes⟩ := evaluated witness witnessAgrees
  refine .mono ((BindM.ofTermM_leaves (yields settled.distinct denotes)).grown
    (BindM.interns_ofTermM (interns ids))) ?_ ?_
  · rintro id later ⟨⟨⟨distinctLater, value, isAllowed, denotesLater⟩, same⟩, grown⟩
    refine ⟨.trans ⟨distinctLater, grown, same⟩ settled, fun assignment agrees => ?_⟩
    obtain ⟨values', valuesEq, denotes'⟩ := evaluated assignment agrees
    obtain rfl := denotes.unique denotes'
    exact ⟨value, evalEq assignment values value valuesEq isAllowed, denotesLater⟩
  · rintro error later ⟨⟨_, distinctLater⟩, _⟩
    exact distinctLater

mutual

/-- Evaluation returns a number that denotes the value of the term. -/
theorem eval_leaves (computes : functions.Computes meaning) (distinctNames : names.Nodup) :
    (plan : PlanTerm) → {term : Term} → {bindings : Bindings} →
    bindings.terms.Distinct → bindings.Grounded → plan.Represents bindings.terms names term →
      LeavesWithRoom (plan.eval functions) bindings
        (fun id later => later.Settled bindings ∧ ∀ assignment, bindings.Agrees names assignment →
          ∃ value, term.eval meaning assignment = some value ∧ later.terms.Denotes id value)
        (fun _ later => later.terms.Distinct)
  | .slot number, _, bindings, distinct, grounded, represents => by
      obtain ⟨name, rfl, named⟩ := represents
      unfold eval
      have read : LeavesWithRoom (BindM.slotValue number) bindings
          (fun value later => later = bindings ∧ bindings.substitution.slots[number]? = some value)
          (fun _ later => later.terms.Distinct) :=
        BindM.slotValue_leaves number (fun _ atSlot => ⟨rfl, atSlot⟩) fun _ => distinct
      refine .bind read (fun value => ?_) ?_
      · cases value with
        | some value => exact .pure
        | none => exact .throw
      · rintro value later ⟨rfl, atSlot⟩
        cases value with
        | some value =>
            exact .pure ⟨⟨distinct, .refl _, rfl⟩, fun assignment agrees =>
              ⟨_, rfl, agrees number value name atSlot named⟩⟩
        | none => exact .throw distinct
  | .const id, _, bindings, distinct, _, represents => by
      obtain ⟨value, rfl, denotes⟩ := represents
      unfold eval
      exact fun room => ⟨⟨distinct, .refl _, rfl⟩, fun assignment _ =>
        ⟨value, value.eval_toTerm assignment, denotes room⟩⟩
  | .ctor name args, _, bindings, distinct, grounded, represents => by
      obtain ⟨terms, rfl, all⟩ := represents
      unfold eval
      refine ofArgs_leaves distinctNames grounded
        (evalList_leaves computes distinctNames args distinct grounded all)
        (fun _ => interns_internTerm _)
        (fun distinct denotes => internTerm_ctor distinct name denotes) ?_
      rintro assignment values _ valuesEq rfl
      simp [Term.eval, valuesEq]
  | .call function args, _, bindings, distinct, grounded, represents => by
      obtain ⟨terms, rfl, all⟩ := represents
      unfold eval
      refine ofArgs_leaves distinctNames grounded
        (evalList_leaves computes distinctNames args distinct grounded all)
        (fun _ => functions.interns_call _ _)
        (fun distinct denotes => Registry.call_leaves computes distinct function denotes) ?_
      intro assignment values value valuesEq valueEq
      simp [Term.eval, valuesEq, valueEq]

theorem evalList_leaves (computes : functions.Computes meaning) (distinctNames : names.Nodup) :
    (plans : List PlanTerm) → {terms : List Term} → {bindings : Bindings} →
    bindings.terms.Distinct → bindings.Grounded → RepresentsAll bindings.terms names plans terms →
      LeavesWithRoom (evalList functions plans) bindings
        (fun ids later => later.Settled bindings ∧ ∀ assignment,
          bindings.Agrees names assignment →
            ∃ values, Term.evalList meaning assignment terms = some values ∧
              later.terms.DenotesAll ids values)
        (fun _ later => later.terms.Distinct)
  | [], _, bindings, distinct, _, all => by
      obtain rfl := all
      unfold evalList
      exact .pure ⟨⟨distinct, .refl _, rfl⟩, fun _ _ => ⟨[], rfl, trivial⟩⟩
  | plan :: plans, _, bindings, distinct, grounded, all => by
      obtain ⟨term, rest, rfl, first, others⟩ := all
      unfold evalList
      refine .bind (eval_leaves computes distinctNames plan distinct grounded first)
        (fun _ => .bind (interns_evalList functions plans) fun _ => .pure) ?_
      rintro id middle ⟨settled, evaluated⟩
      refine .bind (evalList_leaves computes distinctNames plans settled.distinct
        (grounded.mono settled.grown settled.same) (others.mono settled.grown (List.prefix_refl _)))
        (fun _ => .pure) ?_
      rintro ids later ⟨settled', evaluated'⟩
      refine .pure ⟨settled'.trans settled, fun assignment agrees => ?_⟩
      obtain ⟨value, valueEq, denotes⟩ := evaluated assignment agrees
      obtain ⟨values, valuesEq, denotesAll⟩ :=
        evaluated' assignment (agrees.mono settled.grown settled.same)
      exact ⟨value :: values, Term.evalList_cons_eq_some.mpr ⟨value, values, valueEq, valuesEq, rfl⟩,
        denotes.mono settled'.grown, denotesAll⟩

end

end PlanTerm

end Datalog
