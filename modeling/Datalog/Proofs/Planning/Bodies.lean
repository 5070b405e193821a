import Datalog.Proofs.Planning.Order
import Datalog.Proofs.Planning.Terms

/-!
# Planning bodies

A planned literal records how the literal is going to be evaluated: which side of an equation is
evaluated and which is matched, and how the columns of an atom are looked up.  A literal that can be
evaluated at its place gets a plan that fits it.
-/

namespace Datalog

namespace Planner

/-- How an atom has been planned. -/
structure PlannedAtom (context : Context) (state : State) (count : String → Nat)
    (bound : List String) (planned : PlanAtom) (atom : Atom) (delta : Bool) : Prop where
  symbol_eq : planned.symbol = atom.symbol
  delta_eq : planned.delta = delta
  pattern_eq : planned.pattern = atom.args.map (bindingOf count bound)
  args : PlannedAll context.functions state planned.args atom.args
  arity : atom.args.length = atom.symbol.arity
  provides : (state.resources.referents context.separateDeltas).provides delta planned.symbol
    planned.index planned.pattern

/-- How a literal has been planned. -/
def PlannedLiteral (context : Context) (state : State) (count : String → Nat)
    (bound : List String) (planned : PlanLiteral) (literal : BodyLiteral) : Prop :=
  match literal.literal, planned with
  | .unification lhs rhs true, .disunify left right =>
      Planned context.functions state left lhs ∧ Planned context.functions state right rhs
  | .unification lhs rhs false, .unify source pattern =>
      if JoinOrder.isBound bound lhs then
        Planned context.functions state source lhs ∧ Planned context.functions state pattern rhs
      else
        Planned context.functions state source rhs ∧ Planned context.functions state pattern lhs
  | .predicate atom, .scan planned =>
      atom.negated = false ∧ PlannedAtom context state count bound planned atom literal.delta
  | .predicate atom, .absent planned =>
      atom.negated = true ∧ PlannedAtom context state count bound planned atom literal.delta
  | _, _ => False

/-- How a body has been planned. -/
def PlannedBody (context : Context) (state : State) (count : String → Nat) :
    (bound : List String) → List PlanLiteral → List BodyLiteral → Prop
  | _, [], [] => True
  | bound, planned :: others, literal :: body =>
      PlannedLiteral context state count bound planned literal ∧
        PlannedBody context state count (bound ++ literal.vars) others body
  | _, _, _ => False

variable {context : Context} {state later : State} {count : String → Nat} {bound : List String}

theorem PlannedAtom.mono {planned : PlanAtom} {atom : Atom} {delta : Bool}
    (plannedAtom : PlannedAtom context state count bound planned atom delta)
    (continues : later.Continues state) :
    PlannedAtom context later count bound planned atom delta :=
  { plannedAtom with
    args := plannedAtom.args.mono continues
    provides := (continues.extended.keeps context.separateDeltas).provides _ _ _ _
      plannedAtom.provides }

theorem PlannedLiteral.mono {planned : PlanLiteral} {literal : BodyLiteral}
    (plannedLiteral : PlannedLiteral context state count bound planned literal)
    (continues : later.Continues state) :
    PlannedLiteral context later count bound planned literal := by
  unfold PlannedLiteral at plannedLiteral ⊢
  split at plannedLiteral
  · exact ⟨plannedLiteral.1.mono continues, plannedLiteral.2.mono continues⟩
  · split at plannedLiteral
    · next isBound =>
        simp only [isBound, if_true]
        exact ⟨plannedLiteral.1.mono continues, plannedLiteral.2.mono continues⟩
    · next unbound =>
        simp only [unbound, Bool.false_eq_true, if_false]
        exact ⟨plannedLiteral.1.mono continues, plannedLiteral.2.mono continues⟩
  · exact ⟨plannedLiteral.1, plannedLiteral.2.mono continues⟩
  · exact ⟨plannedLiteral.1, plannedLiteral.2.mono continues⟩
  · exact plannedLiteral.elim

/-! ## What planning produces -/

theorem requestIndex_produces (valid : state.Valid) (symbol : RelationSymbol) (pattern : Pattern)
    (delta : Bool) :
    Produces (requestIndex context symbol pattern delta) state fun number later =>
      later.Continues state ∧
        (later.resources.referents context.separateDeltas).provides delta symbol number pattern := by
  refine .get_bind ?_
  dsimp only
  split
  · next separate =>
      refine .lift_bind fun result requested => ?_
      obtain ⟨deltaValid, extended, -, requests⟩ :=
        StorePlan.request_ok valid.valid.delta requested
      refine .set_bind (.pure ⟨⟨valid.names_nodup,
        ⟨valid.valid.distinct, valid.valid.main, deltaValid⟩, List.prefix_refl _,
        ⟨.refl _, .refl _, extended⟩⟩, ?_⟩)
      simp only [Resources.referents, separate, if_true]
      exact requests
  · next shared =>
      refine .lift_bind fun result requested => ?_
      obtain ⟨mainValid, extended, -, requests⟩ := StorePlan.request_ok valid.valid.main requested
      refine .set_bind (.pure ⟨⟨valid.names_nodup,
        ⟨valid.valid.distinct, mainValid, valid.valid.delta⟩, List.prefix_refl _,
        ⟨.refl _, extended, .refl _⟩⟩, ?_⟩)
      simp only [Resources.referents]
      rw [if_neg shared]
      exact requests

theorem checkArity_produces (atom : Atom) :
    Produces (checkArity atom) state fun _ later =>
      later = state ∧ atom.args.length = atom.symbol.arity := by
  unfold checkArity
  split
  · next arity => exact .pure ⟨rfl, arity⟩
  · exact .throw

theorem atom_produces (valid : state.Valid) (atom : Atom) (delta : Bool) :
    Produces (Planner.atom context count bound delta atom) state fun planned later =>
      later.Continues state ∧ PlannedAtom context later count bound planned atom delta := by
  refine .bind (checkArity_produces atom) ?_
  rintro _ _ ⟨rfl, arity⟩
  refine .bind (termList_produces context atom.args valid) ?_
  rintro args middle ⟨continues, planned⟩
  refine .bind (requestIndex_produces continues.later_valid _ _ delta) ?_
  rintro number last ⟨continues', provides⟩
  exact .pure ⟨continues'.trans continues, rfl, rfl, rfl, planned.mono continues', arity, provides⟩

theorem literal_produces (valid : state.Valid) (literal : BodyLiteral) :
    Produces (Planner.literal context count bound literal) state fun planned later =>
      later.Continues state ∧ PlannedLiteral context later count bound planned literal := by
  obtain ⟨literal, delta⟩ := literal
  unfold Planner.literal
  match literal with
  | .unification lhs rhs true =>
      refine .bind (term_produces context lhs valid) ?_
      rintro left middle ⟨continues, planned⟩
      refine .bind (term_produces context rhs continues.later_valid) ?_
      rintro right later ⟨continues', planned'⟩
      exact .pure ⟨continues'.trans continues, planned.mono continues', planned'⟩
  | .unification lhs rhs false =>
      by_cases isBound : JoinOrder.isBound bound lhs = true
      · simp only [isBound, if_true]
        refine .bind (term_produces context lhs valid) ?_
        rintro source middle ⟨continues, planned⟩
        refine .bind (term_produces context rhs continues.later_valid) ?_
        rintro pattern later ⟨continues', planned'⟩
        refine .pure ⟨continues'.trans continues, ?_⟩
        simp only [PlannedLiteral, isBound, if_true]
        exact ⟨planned.mono continues', planned'⟩
      · simp only [isBound, Bool.false_eq_true, if_false]
        refine .bind (term_produces context rhs valid) ?_
        rintro source middle ⟨continues, planned⟩
        refine .bind (term_produces context lhs continues.later_valid) ?_
        rintro pattern later ⟨continues', planned'⟩
        refine .pure ⟨continues'.trans continues, ?_⟩
        simp only [PlannedLiteral, isBound, Bool.false_eq_true, if_false]
        exact ⟨planned.mono continues', planned'⟩
  | .predicate atom =>
      refine .bind (atom_produces valid atom delta) ?_
      rintro planned later ⟨continues, plannedAtom⟩
      refine .pure ⟨continues, ?_⟩
      cases negated : atom.negated with
      | true => exact ⟨negated, plannedAtom⟩
      | false => exact ⟨negated, plannedAtom⟩

theorem body_produces (valid : state.Valid) (body : List BodyLiteral) :
    Produces (Planner.body context count bound body) state fun planned later =>
      later.Continues state ∧ PlannedBody context later count bound planned body := by
  induction body generalizing state bound with
  | nil => exact .pure ⟨valid, trivial⟩
  | cons literal body ih =>
      refine .bind (literal_produces valid literal) ?_
      rintro planned middle ⟨continues, plannedLiteral⟩
      refine .bind (ih continues.later_valid) ?_
      rintro others later ⟨continues', plannedBody⟩
      exact .pure ⟨continues'.trans continues, plannedLiteral.mono continues', plannedBody⟩

/-! ## Plans that fit -/

theorem isBound_of_bindingOf {arg : Term} (isBound : bindingOf count bound arg = .bound) :
    JoinOrder.isBound bound arg = true := by
  unfold bindingOf at isBound
  split at isBound
  · next isBound' => exact isBound'
  · split at isBound <;> cases isBound

theorem exists_var_of_isSingleton {arg : Term} (singleton : JoinOrder.isSingleton count arg = true) :
    ∃ name, arg = .var name ∧ count name = 1 := by
  cases arg with
  | var name => exact ⟨name, rfl, by simpa [JoinOrder.isSingleton, Term.asVar] using singleton⟩
  | bool | int | str | ctor | call => simp [JoinOrder.isSingleton, Term.asVar] at singleton

theorem exists_var_of_bindingOf {arg : Term} (ignored : bindingOf count bound arg = .ignored) :
    ∃ name, arg = .var name ∧ count name = 1 := by
  unfold bindingOf at ignored
  split at ignored
  · cases ignored
  · split at ignored
    · next singleton => exact exists_var_of_isSingleton singleton
    · cases ignored

theorem bindingOf_of_mem_zip {args : List Term} {arg : Term} {binding : Binding}
    (member : (arg, binding) ∈ args.zip (args.map (bindingOf count bound))) :
    arg ∈ args ∧ bindingOf count bound arg = binding := by
  induction args with
  | nil => simp at member
  | cons first args ih =>
      rcases List.mem_cons.mp member with here | further
      · obtain ⟨rfl, rfl⟩ := Prod.mk.inj here
        exact ⟨List.mem_cons_self, rfl⟩
      · obtain ⟨inArgs, bindingEq⟩ := ih further
        exact ⟨List.mem_cons_of_mem _ inArgs, bindingEq⟩

theorem mem_vars_of_mem_args {atom : Atom} {arg : Term} (member : arg ∈ atom.args) {name : String}
    (occurs : name ∈ arg.vars) : name ∈ atom.vars := by
  unfold Atom.vars
  rw [Term.varsList_eq_flatMap]
  exact List.mem_flatMap.mpr ⟨arg, member, occurs⟩

theorem PlannedAtom.fits {planned : PlanAtom} {atom : Atom} {delta : Bool}
    (plannedAtom : PlannedAtom context state count bound planned atom delta)
    (counted : ∀ name, atom.vars.count name ≤ count name) :
    planned.Fits (state.resources.referents context.separateDeltas) state.names count atom delta
    where
  symbol_eq := plannedAtom.symbol_eq
  delta_eq := plannedAtom.delta_eq
  args := plannedAtom.args.represents
  args_length := by simp [plannedAtom.pattern_eq]
  arity := by simp [plannedAtom.pattern_eq, plannedAtom.symbol_eq, plannedAtom.arity]
  provides := plannedAtom.provides
  ignored arg member := by
    rw [plannedAtom.pattern_eq] at member
    exact exists_var_of_bindingOf (bindingOf_of_mem_zip member).2
  counted := counted

/-- Negated atoms are not marked, and their relations do not change. -/
def NegatesFrozen (symbols : List RelationSymbol) (literal : BodyLiteral) : Prop :=
  ∀ atom, literal.literal = .predicate atom → atom.negated = true →
    literal.delta = false ∧ atom.symbol ∉ symbols

theorem PlannedLiteral.fits {symbols : List RelationSymbol} {planned : PlanLiteral}
    {literal : BodyLiteral}
    (plannedLiteral : PlannedLiteral context state count bound planned literal)
    (evaluable : JoinOrder.isEvaluable count bound literal.literal = true)
    (counted : ∀ name, (bound ++ literal.vars).count name ≤ count name)
    (negatesFrozen : NegatesFrozen symbols literal) :
    planned.Fits symbols (state.resources.referents context.separateDeltas) state.names count
      literal := by
  unfold PlannedLiteral at plannedLiteral
  split at plannedLiteral
  · next lhs rhs left right literalEq =>
      exact ⟨lhs, rhs, literalEq, plannedLiteral.1.represents, plannedLiteral.2.represents⟩
  · next lhs rhs source pattern literalEq =>
      split at plannedLiteral
      · exact ⟨lhs, rhs, .inl literalEq, plannedLiteral.1.represents,
          plannedLiteral.2.represents⟩
      · exact ⟨rhs, lhs, .inr literalEq, plannedLiteral.1.represents,
          plannedLiteral.2.represents⟩
  · next atom planned literalEq =>
      have counted' : ∀ name, atom.vars.count name ≤ count name := by
        intro name
        have := counted name
        rw [List.count_append, BodyLiteral.vars, literalEq] at this
        exact (Nat.le_add_left _ _).trans this
      exact ⟨atom, literalEq, plannedLiteral.1, plannedLiteral.2.fits counted'⟩
  · next atom planned literalEq =>
      obtain ⟨negated, plannedAtom⟩ := plannedLiteral
      obtain ⟨unmarked, frozen⟩ := negatesFrozen atom literalEq negated
      have counted' : ∀ name, bound.count name + atom.vars.count name ≤ count name := by
        intro name
        have := counted name
        rwa [List.count_append, BodyLiteral.vars, literalEq] at this
      rw [literalEq] at evaluable
      refine ⟨atom, literalEq, negated, unmarked, frozen, ?_, ?_,
        plannedAtom.fits fun name => (Nat.le_add_left _ _).trans (counted' name)⟩
      · -- A negated atom is placed when its variables have values or occur nowhere else: no column is free.
        intro binding member free
        subst free
        rw [plannedAtom.pattern_eq] at member
        obtain ⟨arg, inArgs, bindingEq⟩ := List.mem_map.mp member
        simp only [JoinOrder.isEvaluable, negated, if_true] at evaluable
        have placed := List.all_eq_true.mp evaluable arg inArgs
        unfold bindingOf at bindingEq
        rcases Bool.or_eq_true_iff.mp placed with isBound | singleton
        · simp [isBound] at bindingEq
        · simp only [singleton, if_true] at bindingEq
          split at bindingEq <;> cases bindingEq
      · -- A variable of a bound column occurs here and in the literals before.
        intro arg member name occurs once
        rw [plannedAtom.pattern_eq] at member
        obtain ⟨inArgs, bindingEq⟩ := bindingOf_of_mem_zip member
        have inBound := JoinOrder.mem_of_isBound (isBound_of_bindingOf bindingEq) occurs
        have early := List.count_pos_iff.mpr inBound
        have here := List.count_pos_iff.mpr (mem_vars_of_mem_args inArgs occurs)
        have := counted' name
        omega
  · exact plannedLiteral.elim

theorem PlannedBody.fits {symbols : List RelationSymbol} {planned : List PlanLiteral}
    {body : List BodyLiteral} (plannedBody : PlannedBody context state count bound planned body)
    (evaluable : JoinOrder.EvaluableFrom count bound body)
    (counted : ∀ name, (bound ++ body.flatMap BodyLiteral.vars).count name ≤ count name)
    (negatesFrozen : ∀ literal ∈ body, NegatesFrozen symbols literal) :
    List.Forall₂ (PlanLiteral.Fits symbols (state.resources.referents context.separateDeltas)
      state.names count) planned body := by
  induction body generalizing bound planned with
  | nil =>
      cases planned with
      | nil => exact .nil
      | cons => exact plannedBody.elim
  | cons literal body ih =>
      cases planned with
      | nil => exact plannedBody.elim
      | cons planned others =>
          obtain ⟨plannedLiteral, plannedOthers⟩ := plannedBody
          obtain ⟨first, rest⟩ := evaluable
          rw [List.flatMap_cons, ← List.append_assoc] at counted
          refine .cons (plannedLiteral.fits first ?_ (negatesFrozen literal List.mem_cons_self))
            (ih plannedOthers rest counted fun other member =>
              negatesFrozen other (List.mem_cons_of_mem _ member))
          intro name
          have := counted name
          rw [List.count_append] at this
          exact (Nat.le_add_right _ _).trans this

end Planner

end Datalog
