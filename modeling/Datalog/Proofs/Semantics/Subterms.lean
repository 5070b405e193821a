import Datalog.Proofs.Semantics.Interning
import Datalog.Proofs.Semantics.Meaning
import Datalog.Rule
import Mathlib.Data.Set.Finite.Basic

/-!
# Subterms, and rules that build no values

A value has finitely many parts, and the numbers that make up its term denote such parts.  Rules that call
nothing and apply constructors to variables in arguments of body atoms only pass parts of values on and
make no others.
-/

namespace Datalog

/-! ## Subterms -/

namespace Term

mutual

/-- The subterms of a term, the term itself first. -/
def subterms : Term → List Term
  | .var name => [.var name]
  | .bool value => [.bool value]
  | .int value => [.int value]
  | .str value => [.str value]
  | .ctor name args => .ctor name args :: subtermsList args
  | .call function args => .call function args :: subtermsList args

def subtermsList : List Term → List Term
  | [] => []
  | term :: terms => subterms term ++ subtermsList terms

end

/-- A term that is a variable or has no variables. -/
def isFlat (term : Term) : Bool :=
  term.asVar.isSome || term.isGround

theorem self_mem_subterms (term : Term) : term ∈ term.subterms := by
  cases term <;> simp [subterms]

mutual

theorem mem_subterms_trans {part inner : Term} : (whole : Term) → part ∈ whole.subterms →
    inner ∈ part.subterms → inner ∈ whole.subterms
  | .var _, isPart, isInner | .bool _, isPart, isInner | .int _, isPart, isInner
  | .str _, isPart, isInner => by
      obtain rfl := List.mem_singleton.mp isPart
      exact isInner
  | .ctor _ args, isPart, isInner | .call _ args, isPart, isInner => by
      rcases List.mem_cons.mp isPart with rfl | inArgs
      · exact isInner
      · exact List.mem_cons_of_mem _ (mem_subtermsList_trans args inArgs isInner)

theorem mem_subtermsList_trans {part inner : Term} : (terms : List Term) →
    part ∈ subtermsList terms → inner ∈ part.subterms → inner ∈ subtermsList terms
  | term :: terms, isPart, isInner => by
      rcases List.mem_append.mp isPart with here | there
      · exact List.mem_append_left _ (mem_subterms_trans term here isInner)
      · exact List.mem_append_right _ (mem_subtermsList_trans terms there isInner)

end

theorem mem_subtermsList {part : Term} {terms : List Term} :
    part ∈ subtermsList terms ↔ ∃ term ∈ terms, part ∈ term.subterms := by
  induction terms with
  | nil => simp [subtermsList]
  | cons term terms ih => simp [subtermsList, ih]

theorem finite_parts (term : Term) : {part : Value | part.toTerm ∈ term.subterms}.Finite := by
  refine (List.finite_toSet term.subterms).preimage fun first _ second _ same => ?_
  have valueOf : ∀ value : Value,
      value.toTerm.eval (fun _ _ => none) (fun _ => .bool true) = some value :=
    fun value => value.eval_toTerm _
  have sameValue := valueOf first
  rw [same, valueOf second] at sameValue
  exact (Option.some.inj sameValue).symm

theorem containsCallList_eq_false {terms : List Term} :
    containsCallList terms = false ↔ ∀ term ∈ terms, term.containsCall = false := by
  rw [containsCallList_eq_any, List.any_eq_false]
  simp only [Bool.not_eq_true]

end Term

namespace TermStore

variable {store : TermStore} {id : TermId} {value : Value}

theorem DenotesAll.exists_part {ids : List TermId} {values : List Value}
    (denotes : store.DenotesAll ids values) (member : id ∈ ids) :
    ∃ part, store.Denotes id part ∧ part.toTerm ∈ Term.subtermsList (Value.toTermList values) := by
  have all := denotesAll_iff_forall₂.mp denotes
  clear denotes
  induction all with
  | nil => cases member
  | cons first _ ih =>
      rcases List.mem_cons.mp member with rfl | member
      · exact ⟨_, first, List.mem_append_left _ (Term.self_mem_subterms _)⟩
      · obtain ⟨part, denotes, isPart⟩ := ih member
        exact ⟨part, denotes, List.mem_append_right _ isPart⟩

/-- The arguments of a term that denotes a value denote parts of it. -/
theorem Denotes.exists_part {term : GroundTerm} {arg : TermId} (denotes : store.Denotes id value)
    (resolved : store.resolve id = some term) (isArg : arg ∈ term.args) :
    ∃ part, store.Denotes arg part ∧ part.toTerm ∈ value.toTerm.subterms := by
  cases term with
  | bool | int | str => cases isArg
  | ctor name args =>
      cases value with
      | bool | int | str => simp [Denotes, resolved] at denotes
      | ctor name' values =>
          obtain ⟨args', resolved', denotesAll⟩ := denotes
          obtain ⟨rfl, rfl⟩ : name = name' ∧ args = args' := by simpa [resolved] using resolved'
          obtain ⟨part, denotesPart, isPart⟩ := denotesAll.exists_part isArg
          exact ⟨part, denotesPart, List.mem_cons_of_mem _ isPart⟩

end TermStore

/-! ## Rules that build no values -/

namespace Literal

/-- The terms of a literal that are not arguments of an atom. -/
def builders : Literal → List Term
  | .unification lhs rhs _ => [lhs, rhs]
  | .predicate _ => []

end Literal

namespace Rule

/-- The terms of a rule, those of the head first. -/
def terms (rule : Rule) : List Term :=
  rule.head.args ++ rule.body.flatMap Literal.terms

def CallFree (rule : Rule) : Prop :=
  ∀ term ∈ rule.terms, term.containsCall = false

instance (rule : Rule) : Decidable rule.CallFree :=
  inferInstanceAs (Decidable (∀ term ∈ rule.terms, term.containsCall = false))

/-- The terms of a rule that are not arguments of body atoms. -/
def builders (rule : Rule) : List Term :=
  rule.head.args ++ rule.body.flatMap Literal.builders

/-- Constructors are applied to variables in arguments of body atoms only. -/
def BuildsNothing (rule : Rule) : Prop :=
  ∀ term ∈ rule.builders, term.isFlat = true

instance (rule : Rule) : Decidable rule.BuildsNothing :=
  inferInstanceAs (Decidable (∀ term ∈ rule.builders, term.isFlat = true))

variable {rule other : Rule}

theorem CallFree.literal (callFree : rule.CallFree) {literal : Literal}
    (member : literal ∈ rule.body) : ∀ term ∈ literal.terms, term.containsCall = false :=
  fun term inLiteral => callFree term
    (List.mem_append_right _ (List.mem_flatMap.mpr ⟨literal, member, inLiteral⟩))

theorem mem_terms_of_mem_builders {term : Term} (member : term ∈ rule.builders) :
    term ∈ rule.terms := by
  refine List.mem_append.mpr ((List.mem_append.mp member).imp id fun inBody => ?_)
  obtain ⟨literal, inRule, isBuilder⟩ := List.mem_flatMap.mp inBody
  refine List.mem_flatMap.mpr ⟨literal, inRule, ?_⟩
  cases literal with
  | unification => exact isBuilder
  | predicate => cases isBuilder

theorem mem_terms_of_perm (headEq : other.head = rule.head) (permuted : other.body.Perm rule.body)
    {term : Term} (member : term ∈ other.terms) : term ∈ rule.terms := by
  rw [terms, List.mem_append, headEq] at member
  exact List.mem_append.mpr (member.imp id (permuted.flatMap_right _).mem_iff.mp)

theorem CallFree.of_perm (noCall : rule.CallFree) (headEq : other.head = rule.head)
    (permuted : other.body.Perm rule.body) : other.CallFree :=
  fun term member => noCall term (mem_terms_of_perm headEq permuted member)

/-- The order of the literals does not matter. -/
theorem BuildsNothing.of_perm (buildsNothing : rule.BuildsNothing) (headEq : other.head = rule.head)
    (permuted : other.body.Perm rule.body) : other.BuildsNothing := by
  intro term member
  refine buildsNothing term ?_
  rw [builders, List.mem_append, headEq] at member
  exact List.mem_append.mpr (member.imp id (permuted.flatMap_right _).mem_iff.mp)

end Rule

end Datalog
