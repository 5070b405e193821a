import Datalog.Proofs.Engine.Warrant
import Datalog.Proofs.Evaluation.Extension
import Datalog.Proofs.Planning.CallFree
import Mathlib.Logic.Relation

/-!
# Numbers that are passed on

Matching goes from the number of a term to the numbers of its arguments, and evaluating a slot or a
constant makes no number.  So tasks whose heads and equations have slots and constants only pass on the
numbers that are reached from the columns of the base facts, and those of the constants, whatever calls
have returned for the base facts.
-/

namespace Datalog

/-! ## Reaching arguments -/

namespace TermStore

variable {store later : TermStore} {roots : Set TermId} {terms : Set Term} {id : TermId}

/-- A number is among the arguments of the term that another number stands for. -/
def HasArg (store : TermStore) (whole part : TermId) : Prop :=
  ∃ term, store.resolve whole = some term ∧ part ∈ term.args

theorem HasArg.mono (grown : later.Extends store) {whole part : TermId}
    (hasArg : store.HasArg whole part) : later.HasArg whole part := by
  obtain ⟨term, resolved, isArg⟩ := hasArg
  exact ⟨term, grown.resolve_eq resolved, isArg⟩

/-- The numbers that are reached from some roots, and those of the values in some terms. -/
def parts (store : TermStore) (roots : Set TermId) (terms : Set Term) : Set TermId :=
  {id | (∃ root ∈ roots, Relation.ReflTransGen store.HasArg root id) ∨
    ∃ term ∈ terms, ∃ value : Value, value.toTerm ∈ term.subterms ∧ store.Denotes id value}

theorem mem_parts_of_mem (isRoot : id ∈ roots) : id ∈ store.parts roots terms :=
  .inl ⟨id, isRoot, .refl⟩

theorem parts_mono (grown : later.Extends store) :
    store.parts roots terms ⊆ later.parts roots terms := by
  rintro id (⟨root, isRoot, reached⟩ | ⟨term, inTerms, value, isPart, denotes⟩)
  · exact .inl ⟨root, isRoot,
      Relation.ReflTransGen.mono (fun _ _ hasArg => hasArg.mono grown) _ _ reached⟩
  · exact .inr ⟨term, inTerms, value, isPart, denotes.mono grown⟩

theorem arg_mem_parts {whole : GroundTerm} (member : id ∈ store.parts roots terms)
    (resolved : store.resolve id = some whole) :
    ∀ arg ∈ whole.args, arg ∈ store.parts roots terms := by
  intro arg isArg
  rcases member with ⟨root, isRoot, reached⟩ | ⟨term, inTerms, value, isPart, denotes⟩
  · exact .inl ⟨root, isRoot, reached.tail ⟨whole, resolved, isArg⟩⟩
  · obtain ⟨part, denotesPart, inValue⟩ := denotes.exists_part resolved isArg
    exact .inr ⟨term, inTerms, part, Term.mem_subterms_trans term isPart inValue, denotesPart⟩

/-- What is reached from a number that denotes a value denotes a part of the value. -/
theorem Denotes.exists_part_of_reaches {root : TermId} {whole : Value}
    (denotes : store.Denotes root whole) (reaches : Relation.ReflTransGen store.HasArg root id) :
    ∃ part, store.Denotes id part ∧ part.toTerm ∈ whole.toTerm.subterms := by
  induction reaches with
  | refl => exact ⟨whole, denotes, Term.self_mem_subterms _⟩
  | tail _ hasArg ih =>
      obtain ⟨term, resolved, isArg⟩ := hasArg
      obtain ⟨middle, denotesMiddle, isMiddle⟩ := ih
      obtain ⟨part, denotesPart, isPart⟩ := denotesMiddle.exists_part resolved isArg
      exact ⟨part, denotesPart, Term.mem_subterms_trans _ isMiddle isPart⟩

end TermStore

/-! ## The warrant -/

/-- Unless the terms have run full, all numbers are parts.  This is promised of slots and constants. -/
def Warrant.parts (roots : Set TermId) (terms : Set Term) : Warrant where
  terms _ := True
  number store id := store.HasRoom → id ∈ store.parts roots terms
  covers plan := plan.isFlat = true
  coversFacts := False
  mono grown member room := TermStore.parts_mono grown (member (grown.hasRoom room))
  args member resolved arg isArg room := TermStore.arg_mem_parts (member room) resolved arg isArg

section

variable {roots : Set TermId} {terms : Set Term} {functions : Registry} {start : TermStore}

/-- Terms that are not covered are evaluated as well, but nothing is promised about their values. -/
theorem PlanTerm.eval_parts_of_not_isFlat {plan : PlanTerm} (composed : plan.isFlat ≠ true)
    {bindings : Bindings} (warranted : bindings.Warranted (.parts roots terms) start) :
    Vouches (Bindings.Warranted (.parts roots terms) start)
      (fun id later => (Warrant.parts roots terms).covers plan →
        (Warrant.parts roots terms).number later.terms id) bindings (plan.eval functions) := by
  have both := (plan.eval_keeps bindings).and
    (PlanTerm.interns_eval functions plan bindings)
  have kept : ∀ later : Bindings, later.substitution = bindings.substitution →
      later.terms.Extends bindings.terms → later.Warranted (.parts roots terms) start := by
    intro later same grown
    exact ⟨trivial, grown.trans warranted.grown, same ▸ warranted.slots.mono grown⟩
  apply both.mono
  · exact fun id later done =>
      ⟨kept later done.1 done.2, done.2, fun covered => absurd covered composed⟩
  · exact fun error later stopped => kept later stopped.1 stopped.2

/-- Evaluation keeps the promise, whatever functions are called. -/
theorem Warrant.honours_parts (roots : Set TermId) (terms : Set Term) (functions : Registry) :
    functions.Honours (.parts roots terms) where
  normalize never := never.elim
  eval plan _ bindings warranted constants := by
    cases plan with
    | slot slot =>
        exact (PlanTerm.eval_slot_vouches warranted slot).mono fun _ _ number _ => number
    | const id =>
        have number := constants id (by simp [PlanTerm.constants])
        exact (PlanTerm.eval_const_vouches warranted number).mono fun _ _ number _ => number
    | ctor | call => exact PlanTerm.eval_parts_of_not_isFlat (by simp [PlanTerm.isFlat]) warranted

theorem Warrant.holdsFor_parts {term : Term} (inTerms : term ∈ terms) (store : TermStore) :
    (Warrant.parts roots terms).HoldsFor store term :=
  fun value isPart _ denotes room => .inr ⟨term, inTerms, value, isPart, denotes room⟩

end

/-! ## How many tuples there are -/

theorem ncard_rows {α : Type} {domain : Set α} (finite : domain.Finite) (length : Nat) :
    {row : List α | row.length = length ∧ ∀ value ∈ row, value ∈ domain}.Finite ∧
      {row : List α | row.length = length ∧ ∀ value ∈ row, value ∈ domain}.ncard ≤
        domain.ncard ^ length := by
  induction length with
  | zero =>
      have only : {row : List α | row.length = 0 ∧ ∀ value ∈ row, value ∈ domain} ⊆ {[]} :=
        fun row member => List.length_eq_zero_iff.mp member.1
      refine ⟨(Set.finite_singleton _).subset only, ?_⟩
      exact (Set.ncard_le_ncard only (Set.finite_singleton _)).trans (Set.ncard_singleton _).le
  | succ length ih =>
      obtain ⟨shorterFinite, shorter⟩ := ih
      let pairs := domain ×ˢ {row : List α | row.length = length ∧ ∀ value ∈ row, value ∈ domain}
      have split : {row : List α | row.length = length + 1 ∧ ∀ value ∈ row, value ∈ domain} ⊆
          (fun pair => pair.1 :: pair.2) '' pairs := by
        rintro row ⟨lengthEq, members⟩
        cases row with
        | nil => cases lengthEq
        | cons value row =>
            obtain ⟨here, there⟩ := List.forall_mem_cons.mp members
            exact ⟨(value, row), ⟨here, Nat.succ.inj lengthEq, there⟩, rfl⟩
      have pairsFinite : pairs.Finite := finite.prod shorterFinite
      refine ⟨(pairsFinite.image _).subset split, ?_⟩
      calc _ ≤ ((fun pair => pair.1 :: pair.2) '' pairs).ncard :=
            Set.ncard_le_ncard split (pairsFinite.image _)
        _ ≤ pairs.ncard := Set.ncard_image_le pairsFinite
        _ ≤ domain.ncard ^ (length + 1) := by
            rw [Set.ncard_prod, Nat.pow_succ, Nat.mul_comm]
            exact Nat.mul_le_mul_right _ shorter

/-- A relation whose tuples consist of parts has at most as many tuples as there are rows of parts. -/
theorem FactStore.Warranted.countDistinct_le_pow {store : FactStore} {terms : TermStore}
    {roots : Set TermId} {constants : Set Term}
    (warranted : store.Warranted (.parts roots constants) terms) (room : terms.HasRoom)
    (symbol : RelationSymbol) :
    store.countDistinct symbol ≤ (terms.parts roots constants).ncard ^ symbol.arity := by
  obtain ⟨finite, counted⟩ := ncard_rows (terms.parts roots constants).toFinite symbol.arity
  rw [countDistinct_eq_length]
  refine (length_le_ncard (warranted.valid.nodup_tuples_masterOf symbol) (fun tuple member => ?_)
    finite).trans counted
  have holds := mem_masterOf_tuples.mp member
  exact ⟨warranted.valid.length_of_holds holds, fun id inTuple =>
    warranted.numbers symbol tuple holds id inTuple room⟩

end Datalog
