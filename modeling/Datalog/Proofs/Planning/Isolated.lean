import Datalog.Proofs.Planning.Acceptance
import Datalog.Proofs.Semantics.Isolation

/-!
# Ordering rules with isolated calls

An eager evaluation isolates the calls of a rule's delta atom before it orders the body.  Nothing has to
be evaluated to match such an atom, so it can be placed first, and it gives values to the variables that
stand for the calls.  The other literals keep the order that they had, with the equations where the atom
was, so a rule that can be ordered can still be ordered.

Filters and delta atoms come first in an eager evaluation.  So another atom is placed before the delta
atom only if it is negated and written before it.
-/

namespace Datalog

namespace Term

mutual

theorem callVars_eq_nil : (term : Term) → term.containsCall = false → term.callVars = []
  | .var _, _ | .bool _, _ | .int _, _ | .str _, _ => by simp only [callVars]
  | .ctor _ args, noCall => by
      unfold callVars
      exact callVarsList_eq_nil args noCall
  | .call _ _, noCall => by cases noCall

theorem callVarsList_eq_nil :
    (terms : List Term) → containsCallList terms = false → callVarsList terms = []
  | [], _ => rfl
  | term :: terms, noCall => by
      obtain ⟨here, there⟩ := Bool.or_eq_false_iff.mp noCall
      simp only [callVarsList, callVars_eq_nil term here, callVarsList_eq_nil terms there,
        List.append_nil]

end

end Term

namespace JoinOrder

variable {count : String → Nat} {bound : List String}

theorem evaluableFrom_append {first second : List BodyLiteral} :
    EvaluableFrom count bound (first ++ second) ↔ EvaluableFrom count bound first ∧
      EvaluableFrom count (bound ++ first.flatMap BodyLiteral.vars) second := by
  induction first generalizing bound with
  | nil => simp [EvaluableFrom]
  | cons literal first ih =>
      simp only [List.cons_append, EvaluableFrom, ih, List.flatMap_cons, List.append_assoc, and_assoc]

theorem isMatchable_of_callFree {term : Term} (noCall : term.containsCall = false) :
    isMatchable bound term = true := by
  simp [isMatchable, term.callVars_eq_nil noCall]

end JoinOrder

namespace DeltaRule

open JoinOrder

variable {rule ordered : DeltaRule} {before after : List BodyLiteral} {atom : Atom}
  {count : String → Nat} {bound : List String}

/-! ## Rules with one delta atom -/

/-- A rule has a single delta literal, a positive atom that stands between other literals. -/
structure Marks (rule : DeltaRule) (before : List BodyLiteral) (atom : Atom)
    (after : List BodyLiteral) : Prop where
  body_eq : rule.body = before ++ { literal := .predicate atom, delta := true } :: after
  positive : atom.negated = false
  unmarkedBefore : ∀ literal ∈ before, literal.delta = false
  unmarkedAfter : ∀ literal ∈ after, literal.delta = false

/-- A variant has no delta literal, or it marks one atom of the stratum. -/
theorem unmarked_or_marks {rule : Rule} {stratum : List RelationSymbol} {variant : DeltaRule}
    (isVariant : variant ∈ variants rule stratum) :
    (∀ literal ∈ variant.body, literal.delta = false) ∨
      ∃ before atom after, variant.Marks before atom after ∧ atom.symbol ∈ stratum := by
  unfold variants at isVariant
  split at isVariant
  · left
    obtain rfl := List.mem_singleton.mp isVariant
    intro literal inBody
    obtain ⟨_, -, rfl⟩ := List.mem_map.mp inBody
    rfl
  · right
    obtain ⟨position, isPosition, rfl⟩ := List.mem_map.mp isVariant
    obtain ⟨atom, atPosition, positive, inStratum⟩ := mem_recursivePositions.mp isPosition
    obtain ⟨inside, atomEq⟩ := List.getElem?_eq_some_iff.mp atPosition
    have insideVariant : position < (markedAt rule position).body.length := by
      simpa [markedAt] using inside
    have atomMarked : (markedAt rule position).body[position] =
        { literal := .predicate atom, delta := true } := by
      simp [markedAt, atomEq]
    refine ⟨(markedAt rule position).body.take position, atom,
      (markedAt rule position).body.drop (position + 1), ⟨?_, positive, ?_, ?_⟩, inStratum⟩
    · rw [← atomMarked, ← List.drop_eq_getElem_cons insideVariant, List.take_append_drop]
    · intro literal member
      obtain ⟨index, below, rfl⟩ := List.mem_take_iff_getElem.mp member
      have different : index ≠ position := by omega
      simp [markedAt, different]
    · intro literal member
      obtain ⟨index, below, rfl⟩ := List.mem_drop_iff_getElem.mp member
      have different : position + 1 + index ≠ position := by omega
      simp [markedAt, different]

/-! ## Isolated arguments -/

theorem isMatchable_isolateArgs (next : Nat) (args : List Term) :
    ∀ arg ∈ (isolateArgs next args).1, isMatchable bound arg = true := by
  induction args generalizing next with
  | nil => simp [isolateArgs]
  | cons arg args ih =>
      by_cases call : arg.containsCall = true
      · rw [isolateArgs_cons_call next args call]
        exact List.forall_mem_cons.mpr ⟨isMatchable_of_callFree rfl, ih (next + 1)⟩
      · rw [isolateArgs_cons_other next args call]
        exact List.forall_mem_cons.mpr ⟨isMatchable_of_callFree (by simpa using call), ih next⟩

/-- Every number that is used names a variable of the new arguments. -/
theorem isolatedName_mem_isolateArgs {next index : Nat} {args : List Term} (from_next : next ≤ index)
    (below : index < next + args.countP Term.containsCall) :
    isolatedName index ∈ Term.varsList (isolateArgs next args).1 := by
  induction args generalizing next with
  | nil =>
      rw [List.countP_nil] at below
      omega
  | cons arg args ih =>
      rw [List.countP_cons] at below
      by_cases call : arg.containsCall = true
      · rw [isolateArgs_cons_call next args call, Term.varsList]
        rcases Nat.eq_or_lt_of_le from_next with rfl | later
        · exact List.mem_append_left _ (List.mem_singleton_self _)
        · rw [if_pos call] at below
          exact List.mem_append_right _ (ih later (by omega))
      · rw [isolateArgs_cons_other next args call, Term.varsList]
        rw [if_neg call] at below
        exact List.mem_append_right _ (ih from_next (by omega))

theorem mem_vars_isolateArgs (next : Nat) {args : List Term} {name : String}
    (occurs : name ∈ Term.varsList args) :
    name ∈ Term.varsList (isolateArgs next args).1 ++
      (isolateArgs next args).2.1.flatMap BodyLiteral.vars := by
  induction args generalizing next with
  | nil => simp [Term.varsList] at occurs
  | cons arg args ih =>
      by_cases call : arg.containsCall = true
      · have rest := ih (next + 1)
        rw [isolateArgs_cons_call next args call]
        have equationVars : (isolatedEquation next arg).vars =
          (isolatedVar next).vars ++ (arg.vars ++ []) := rfl
        simp only [Term.varsList, List.mem_append, List.flatMap_cons, equationVars] at occurs rest ⊢
        tauto
      · have rest := ih next
        rw [isolateArgs_cons_other next args call]
        simp only [Term.varsList, List.mem_append] at occurs rest ⊢
        tauto

/-- The equations can be evaluated where the atom could. -/
theorem evaluableFrom_isolateArgs {next : Nat} {args : List Term}
    (named : ∀ index, next ≤ index → index < next + args.countP Term.containsCall →
      isolatedName index ∈ bound)
    (matchable : ∀ arg ∈ args, isMatchable bound arg = true) :
    EvaluableFrom count bound (isolateArgs next args).2.1 := by
  induction args generalizing next bound with
  | nil => trivial
  | cons arg args ih =>
      obtain ⟨matchableFirst, matchableRest⟩ := List.forall_mem_cons.mp matchable
      by_cases call : arg.containsCall = true
      · rw [List.countP_cons_of_pos call] at named
        rw [isolateArgs_cons_call next args call]
        have isNamed : isolatedName next ∈ bound := named next (Nat.le_refl _) (by omega)
        refine ⟨?_, ih (fun index after below => ?_) fun other member => ?_⟩
        · have variableBound : isBound bound (isolatedVar next) = true := by
            refine List.all_eq_true.mpr fun name member => List.contains_iff_mem.mpr ?_
            rwa [List.mem_singleton.mp member]
          simp [isolatedEquation, isEvaluable, variableBound, matchableFirst]
        · exact List.mem_append_left _ (named index (by omega) (by omega))
        · exact isMatchable_mono (List.subset_append_left _ _) (matchableRest other member)
      · rw [List.countP_cons_of_neg call] at named
        rw [isolateArgs_cons_other next args call]
        exact ih named matchableRest

/-! ## Isolated bodies -/

theorem isolateBody_append (next : Nat) (unmarked : ∀ literal ∈ before, literal.delta = false)
    (body : List BodyLiteral) : isolateBody next (before ++ body) = before ++ isolateBody next body := by
  induction before with
  | nil => rfl
  | cons literal before ih =>
      obtain ⟨here, there⟩ := List.forall_mem_cons.mp unmarked
      rw [List.cons_append, isolateBody_cons_other, ih there, List.cons_append]
      rintro atom rfl
      cases here

theorem isolateBody_of_unmarked (next : Nat) {body : List BodyLiteral}
    (unmarked : ∀ literal ∈ body, literal.delta = false) : isolateBody next body = body := by
  simpa [isolateBody] using isolateBody_append next unmarked []

/-- A delta atom with its calls isolated. -/
def isolatedAtom (atom : Atom) : BodyLiteral where
  literal := .predicate { atom with args := (isolateArgs 0 atom.args).1 }
  delta := true

/-- The equations that take the place of the calls of a delta atom. -/
def isolatedEquations (atom : Atom) : List BodyLiteral :=
  (isolateArgs 0 atom.args).2.1

theorem mem_vars_isolatedAtom (atom : Atom) (name : String) :
    name ∈ ({ literal := .predicate atom, delta := true } : BodyLiteral).vars →
      name ∈ (isolatedAtom atom).vars ++ (isolatedEquations atom).flatMap BodyLiteral.vars :=
  mem_vars_isolateArgs 0

/-- The atom can be evaluated before anything has a value. -/
theorem isEvaluable_isolatedAtom (positive : atom.negated = false) :
    isEvaluable count bound (isolatedAtom atom).literal = true := by
  simp only [isolatedAtom, isEvaluable, positive, Bool.false_eq_true, if_false, List.all_eq_true]
  exact isMatchable_isolateArgs 0 atom.args

namespace Marks

theorem isolated_body (marks : rule.Marks before atom after) :
    rule.isolateCalls.body = before ++ (isolatedEquations atom ++ isolatedAtom atom :: after) := by
  change isolateBody 0 rule.body = _
  rw [marks.body_eq, isolateBody_append 0 marks.unmarkedBefore, isolateBody_cons_marked,
    isolateBody_of_unmarked _ marks.unmarkedAfter]
  rfl

theorem isolatedCount_eq (marks : rule.Marks before atom after) :
    isolatedCount rule.body = atom.args.countP Term.containsCall := by
  have nothing : ∀ {body : List BodyLiteral}, (∀ literal ∈ body, literal.delta = false) →
      isolatedCount body = 0 := by
    intro body unmarked
    have noArgs : body.flatMap markedArgs = [] := by
      refine List.flatMap_eq_nil_iff.mpr fun literal member => markedArgs_of_other ?_
      rintro atom rfl
      cases unmarked _ member
    rw [isolatedCount, noArgs, List.countP_nil]
  have split : isolatedCount (before ++ { literal := .predicate atom, delta := true } :: after) =
      isolatedCount before + isolatedCount
        ({ literal := .predicate atom, delta := true } :: after) := by
    simp [isolatedCount]
  rw [marks.body_eq, split, isolatedCount_cons_marked, nothing marks.unmarkedBefore,
    nothing marks.unmarkedAfter]
  omega

/-- A variable that was a singleton is still one, unless the delta atom has it. -/
theorem single_isolateCalls (marks : rule.Marks before atom after) (name : String)
    (once : rule.varCount name = 1) :
    rule.isolateCalls.varCount name = 1 ∨ name ∈ (isolatedAtom atom).vars := by
  by_cases isolated : ∃ index < isolatedCount rule.body, name = isolatedName index
  · right
    obtain ⟨index, below, rfl⟩ := isolated
    rw [marks.isolatedCount_eq] at below
    exact isolatedName_mem_isolateArgs (Nat.zero_le _) (by simpa using below)
  · left
    rw [← once]
    exact varCount_isolateCalls_of_ne fun index below same => isolated ⟨index, below, same⟩

theorem mem_vars_isolateCalls (marks : rule.Marks before atom after) {name : String}
    (occurs : name ∈ rule.body.flatMap BodyLiteral.vars) :
    name ∈ rule.isolateCalls.body.flatMap BodyLiteral.vars := by
  have ofAtom := mem_vars_isolatedAtom atom name
  rw [marks.isolated_body]
  rw [marks.body_eq] at occurs
  simp only [List.flatMap_append, List.flatMap_cons, List.mem_append] at occurs ofAtom ⊢
  tauto

/-- The delta atom with its calls isolated, then what came before it, then the equations for the calls,
then what came after it. -/
theorem perm_isolateCalls {first second : List BodyLiteral} (marks : rule.Marks before atom after)
    (others : (first ++ second).Perm (before ++ after)) :
    (isolatedAtom atom :: (first ++ (isolatedEquations atom ++ second))).Perm
      rule.isolateCalls.body := by
  have equationsFirst : (first ++ (isolatedEquations atom ++ second)).Perm
      (before ++ (isolatedEquations atom ++ after)) :=
    ((List.perm_append_comm_assoc _ _ _).trans (others.append_left _)).trans
      (List.perm_append_comm_assoc _ _ _)
  rw [marks.isolated_body, ← List.append_assoc before]
  refine (equationsFirst.cons _).trans ?_
  rw [← List.append_assoc before]
  exact List.perm_middle.symm

/-- Whatever can be evaluated before and after the delta atom can be evaluated after it is taken to the
front and its calls have been isolated. -/
theorem evaluableFrom_isolateCalls {first second : List BodyLiteral}
    (marks : rule.Marks before atom after)
    (evaluable : EvaluableFrom rule.varCount []
      (first ++ { literal := .predicate atom, delta := true } :: second)) :
    EvaluableFrom rule.isolateCalls.varCount []
      (isolatedAtom atom :: (first ++ (isolatedEquations atom ++ second))) := by
  obtain ⟨evaluableFirst, evaluableAtom, evaluableSecond⟩ := evaluableFrom_append.mp evaluable
  have named : ∀ index, 0 ≤ index → index < 0 + atom.args.countP Term.containsCall →
      isolatedName index ∈ (isolatedAtom atom).vars :=
    fun index => isolatedName_mem_isolateArgs
  have matchable : ∀ arg ∈ atom.args,
      isMatchable ([] ++ first.flatMap BodyLiteral.vars) arg = true := by
    simpa [isEvaluable, marks.positive] using evaluableAtom
  refine ⟨isEvaluable_isolatedAtom marks.positive, evaluableFrom_append.mpr ⟨?_,
    evaluableFrom_append.mpr ⟨?_, ?_⟩⟩⟩
  · exact evaluableFirst.recount (List.nil_subset _) marks.single_isolateCalls
  · refine evaluableFrom_isolateArgs (fun index start below => ?_) fun arg member => ?_
    · exact List.mem_append_left _ (named index start below)
    · refine isMatchable_mono ?_ (matchable arg member)
      exact List.append_subset.mpr ⟨List.nil_subset _, List.subset_append_right _ _⟩
  · refine evaluableSecond.recount (fun name known => ?_) fun name once => ?_
    · have ofAtom := mem_vars_isolatedAtom atom name
      simp only [List.mem_append, List.nil_append] at known ofAtom ⊢
      tauto
    · exact (marks.single_isolateCalls name once).imp_right fun inAtom => by simp [inAtom]

/-- A rule that can be ordered can be ordered when its calls are isolated. -/
theorem orderable_isolateCalls (marks : rule.Marks before atom after) (orderable : rule.Orderable) :
    rule.isolateCalls.Orderable := by
  obtain ⟨target, permuted, evaluable⟩ := orderable
  rw [marks.body_eq] at permuted
  obtain ⟨first, second, rfl⟩ := List.append_of_mem
    (permuted.mem_iff.mpr (List.mem_append_right _ List.mem_cons_self))
  have others : (first ++ second).Perm (before ++ after) :=
    ((List.perm_middle.symm.trans permuted).trans List.perm_middle).cons_inv
  exact ⟨_, marks.perm_isolateCalls others, marks.evaluableFrom_isolateCalls evaluable⟩

end Marks

end DeltaRule

/-! ## Delta atoms first -/

namespace JoinOrder

variable {count : String → Nat} {bound : List String} {marked : BodyLiteral}

end JoinOrder

namespace DeltaRule

open JoinOrder

variable {rule ordered : DeltaRule} {before after arranged : List BodyLiteral} {atom : Atom}
  {count : String → Nat} {bound : List String}

end DeltaRule

end Datalog
