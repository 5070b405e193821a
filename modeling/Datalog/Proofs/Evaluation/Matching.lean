import Datalog.Proofs.Evaluation.Term

/-!
# Matching

Matching a planned term against a value finds out under which assignments the term has this value: the
match succeeds exactly if some assignment that agrees with the bindings gives it the value, and
afterwards the assignments that agree are those that do.
-/

namespace Datalog

variable {meaning : Interpretation} {functions : Registry} {names : List String}

/-- Bindings after a match.  If the match succeeded, every assignment that agrees with them meets one
condition, and every assignment that agreed before and meets another condition still agrees. -/
structure Bindings.Matched (names : List String) (bindings later : Bindings) (success : Bool)
    (necessary sufficient : Assignment → Prop) : Prop where
  distinct : later.terms.Distinct
  grounded : later.Grounded
  extended : later.Extends bindings
  sound : success = true → ∀ assignment, later.Agrees names assignment → necessary assignment
  complete : ∀ assignment, bindings.Agrees names assignment → sufficient assignment →
    success = true ∧ later.Agrees names assignment

namespace Bindings.Matched

variable {bindings middle later : Bindings} {success : Bool}
  {necessary necessary' sufficient sufficient' : Assignment → Prop}

/-- A match that fails, however the rest would go. -/
theorem failed (matched : Matched names bindings later false necessary sufficient)
    (weaker : ∀ assignment, sufficient' assignment → sufficient assignment) :
    Matched names bindings later false necessary' sufficient' where
  distinct := matched.distinct
  grounded := matched.grounded
  extended := matched.extended
  sound := by simp
  complete assignment agrees holds :=
    absurd (matched.complete assignment agrees (weaker assignment holds)).1 (by simp)

theorem andThen (grounded : middle.Grounded)
    (first : Matched names bindings middle true necessary sufficient)
    (second : Matched names middle later success necessary' sufficient') :
    Matched names bindings later success
      (fun assignment => necessary assignment ∧ necessary' assignment)
      (fun assignment => sufficient assignment ∧ sufficient' assignment) where
  distinct := second.distinct
  grounded := second.grounded
  extended := second.extended.trans first.extended
  sound isSuccess assignment agrees :=
    ⟨first.sound rfl assignment (second.extended.agrees grounded agrees),
      second.sound isSuccess assignment agrees⟩
  complete assignment agrees holds :=
    second.complete assignment (first.complete assignment agrees holds.1).2 holds.2

theorem imp (matched : Matched names bindings later success necessary sufficient)
    (weaker : ∀ assignment, later.Agrees names assignment → necessary assignment →
      necessary' assignment)
    (stronger : ∀ assignment, bindings.Agrees names assignment → sufficient' assignment →
      sufficient assignment) :
    Matched names bindings later success necessary' sufficient' where
  distinct := matched.distinct
  grounded := matched.grounded
  extended := matched.extended
  sound isSuccess assignment agrees :=
    weaker assignment agrees (matched.sound isSuccess assignment agrees)
  complete assignment agrees holds :=
    matched.complete assignment agrees (stronger assignment agrees holds)

/-- What is decided without binding a slot. -/
theorem of_settled (settled : later.Settled bindings) (grounded : bindings.Grounded)
    (sound : success = true → ∀ assignment, bindings.Agrees names assignment → necessary assignment)
    (complete : ∀ assignment, bindings.Agrees names assignment → sufficient assignment →
      success = true) :
    Matched names bindings later success necessary sufficient where
  distinct := settled.distinct
  grounded := grounded.mono settled.grown settled.same
  extended := settled.extends
  sound isSuccess assignment agrees :=
    sound isSuccess assignment (settled.extends.agrees grounded agrees)
  complete assignment agrees holds :=
    ⟨complete assignment agrees holds, agrees.mono settled.grown settled.same⟩

end Bindings.Matched

theorem Bindings.Settled.refl {bindings : Bindings} (distinct : bindings.terms.Distinct) :
    bindings.Settled bindings :=
  ⟨distinct, .refl _, rfl⟩

/-- Comparing the number of a term's value with another number compares the values. -/
theorem Bindings.Matched.of_value {term : Term} {bindings later : Bindings} {result id : TermId}
    {value : Value} (settled : later.Settled bindings) (grounded : bindings.Grounded)
    (evaluated : ∀ assignment, bindings.Agrees names assignment →
      ∃ value', term.eval meaning assignment = some value' ∧ later.terms.Denotes result value')
    (denotes : later.terms.Denotes id value) :
    Bindings.Matched names bindings later (decide (result = id))
      (fun assignment => term.eval meaning assignment = some value)
      (fun assignment => term.eval meaning assignment = some value) := by
  refine .of_settled settled grounded ?_ ?_
  · intro same assignment agrees
    obtain rfl : result = id := by simpa using same
    obtain ⟨value', valueEq, denotes'⟩ := evaluated assignment agrees
    rw [valueEq, denotes'.unique denotes]
  · intro assignment agrees isValue
    obtain ⟨value', valueEq, denotes'⟩ := evaluated assignment agrees
    rw [isValue, Option.some.injEq] at valueEq
    subst valueEq
    exact decide_eq_true (denotes'.injective settled.distinct denotes)

/-- Binding an unbound slot to a number leaves the assignments that give its variable this value. -/
theorem BindM.bindSlot_matched {bindings : Bindings} (distinct : bindings.terms.Distinct)
    (grounded : bindings.Grounded) {number : Nat} {name : String} {id : TermId} {value : Value}
    (unbound : bindings.substitution.slots[number]? = some none) (named : names[number]? = some name)
    (denotes : bindings.terms.Denotes id value) :
    Bindings.Matched names bindings
      { bindings with substitution := bindings.substitution.bind number id } true
      (fun assignment => assignment name = value) (fun assignment => assignment name = value) := by
  have inside := (List.getElem?_eq_some_iff.mp unbound).1
  have atSlot : (bindings.substitution.bind number id).slots[number]? = some (some id) := by
    simp [Substitution.bind, inside]
  have elsewhere : ∀ slot, slot ≠ number →
      (bindings.substitution.bind number id).slots[slot]? = bindings.substitution.slots[slot]? :=
    fun slot apart => List.getElem?_set_ne (Ne.symm apart)
  refine ⟨distinct, fun slot id' bound => ?_, ⟨.refl _, .bind (.refl _) unbound id⟩,
    fun _ assignment agrees => ?_, fun assignment agrees same => ⟨rfl, fun slot id' name' bound named' => ?_⟩⟩
  · by_cases here : slot = number
    · subst here
      rw [atSlot, Option.some.injEq, Option.some.injEq] at bound
      exact ⟨value, bound ▸ denotes⟩
    · exact grounded slot id' (by rwa [elsewhere slot here] at bound)
  · exact (agrees number id name atSlot named).unique denotes
  · by_cases here : slot = number
    · subst here
      rw [atSlot, Option.some.injEq, Option.some.injEq] at bound
      rw [named, Option.some.injEq] at named'
      rw [← named', same, ← bound]
      exact denotes
    · exact agrees slot id' name' (by rwa [elsewhere slot here] at bound) named'

namespace PlanTerm

/-- Matching a slot binds it, or compares the value that it has. -/
theorem matchSlot_leaves {number : Nat} {name : String} {bindings : Bindings}
    (distinct : bindings.terms.Distinct) (grounded : bindings.Grounded)
    (named : names[number]? = some name) {id : TermId} {value : Value}
    (denotes : bindings.terms.Denotes id value) :
    LeavesWithRoom ((PlanTerm.slot number).matchValue functions id) bindings
      (fun success later => Bindings.Matched names bindings later success
        (fun assignment => (Term.var name).eval meaning assignment = some value)
        (fun assignment => (Term.var name).eval meaning assignment = some value))
      (fun _ later => later.terms.Distinct) := by
  unfold matchValue
  have read : LeavesWithRoom (BindM.slotValue number) bindings
      (fun value later => later = bindings ∧ bindings.substitution.slots[number]? = some value)
      (fun _ later => later.terms.Distinct) :=
    BindM.slotValue_leaves number (fun _ atSlot => ⟨rfl, atSlot⟩) fun _ => distinct
  refine .bind read (fun present => ?_) ?_
  · cases present with
    | some present => exact .pure
    | none => exact .bind (.modify fun _ => rfl) fun _ => .pure
  · rintro present later ⟨rfl, atSlot⟩
    cases present with
    | some present =>
        exact .pure (.of_value (.refl distinct) grounded
          (fun assignment agrees => ⟨_, rfl, agrees number present name atSlot named⟩) denotes)
    | none =>
        have matched := BindM.bindSlot_matched distinct grounded atSlot named denotes
        refine fun _ => matched.imp ?_ ?_
        · intro assignment _ same
          simp [Term.eval, same]
        · intro assignment _ evaluated
          simpa [Term.eval] using evaluated

/-- Matching a constant compares it. -/
theorem matchConst_leaves {present : TermId} {value' : Value} {bindings : Bindings}
    (distinct : bindings.terms.Distinct) (grounded : bindings.Grounded)
    (denotesIfRoom : bindings.terms.HasRoom → bindings.terms.Denotes present value') {id : TermId}
    {value : Value} (denotes : bindings.terms.Denotes id value) :
    LeavesWithRoom ((PlanTerm.const present).matchValue functions id) bindings
      (fun success later => Bindings.Matched names bindings later success
        (fun assignment => value'.toTerm.eval meaning assignment = some value)
        (fun assignment => value'.toTerm.eval meaning assignment = some value))
      (fun _ later => later.terms.Distinct) := by
  unfold matchValue
  exact fun room => .of_value (.refl distinct) grounded
    (fun assignment _ => ⟨value', value'.eval_toTerm assignment, denotesIfRoom room⟩) denotes

/-- Only a value with its constructor and as many arguments can be the value of a term. -/
theorem resolve_of_eval_ctor {terms : TermStore} {name : String} {args : List Term}
    {assignment : Assignment} {id : TermId} {value : Value}
    (evaluated : (Term.ctor name args).eval meaning assignment = some value)
    (denotes : terms.Denotes id value) :
    ∃ ids, terms.resolve id = some (.ctor name ids) ∧ ids.length = args.length := by
  obtain ⟨values, valuesEq, rfl⟩ := Option.map_eq_some_iff.mp evaluated
  obtain ⟨ids, resolved, denotesAll⟩ := denotes
  exact ⟨ids, resolved, denotesAll.length_eq.trans (Term.evalList_length valuesEq)⟩

theorem eval_ctor_eq_some_iff {name : String} {args : List Term} {assignment : Assignment}
    {values : List Value} : (Term.ctor name args).eval meaning assignment = some (.ctor name values) ↔
      Term.evalList meaning assignment args = some values := by
  simp [Term.eval]

/-- A value with another constructor or another number of arguments does not match. -/
theorem mismatch_leaves {name : String} {args : List Term} {bindings : Bindings}
    (distinct : bindings.terms.Distinct) (grounded : bindings.Grounded) {id : TermId} {value : Value}
    (denotes : bindings.terms.Denotes id value)
    (other : ∀ ids, bindings.terms.resolve id = some (.ctor name ids) → ids.length ≠ args.length) :
    LeavesWithRoom (pure false : BindM Bool) bindings
      (fun success later => Bindings.Matched names bindings later success
        (fun assignment => (Term.ctor name args).eval meaning assignment = some value)
        (fun assignment => (Term.ctor name args).eval meaning assignment = some value))
      (fun _ later => later.terms.Distinct) := by
  refine .pure (.of_settled (.refl distinct) grounded (by simp) ?_)
  intro assignment _ evaluated
  obtain ⟨ids, resolved, length⟩ := resolve_of_eval_ctor evaluated denotes
  exact absurd length (other ids resolved)

mutual

/-- Matching a planned term against a number finds the assignments that give the term its value. -/
theorem matchValue_leaves (computes : functions.Computes meaning) (distinctNames : names.Nodup) :
    (plan : PlanTerm) → {term : Term} → {bindings : Bindings} → bindings.terms.Distinct →
      bindings.Grounded → plan.Represents bindings.terms names term → {id : TermId} →
        {value : Value} → bindings.terms.Denotes id value →
          LeavesWithRoom (plan.matchValue functions id) bindings
            (fun success later => Bindings.Matched names bindings later success
              (fun assignment => term.eval meaning assignment = some value)
              (fun assignment => term.eval meaning assignment = some value))
            (fun _ later => later.terms.Distinct)
  | .slot number, _, bindings, distinct, grounded, represents, id, value, denotes => by
      obtain ⟨name, rfl, named⟩ := represents
      exact matchSlot_leaves distinct grounded named denotes
  | .const present, _, bindings, distinct, grounded, represents, id, value, denotes => by
      obtain ⟨value', rfl, denotesIfRoom⟩ := represents
      exact matchConst_leaves distinct grounded denotesIfRoom denotes
  | .ctor name args, _, bindings, distinct, grounded, represents, id, value, denotes => by
      obtain ⟨terms, rfl, all⟩ := represents
      unfold matchValue
      refine .get_bind ?_
      split
      · next name' ids resolved =>
          split
          · next fits =>
              -- What a number denotes has the constructor and the arguments of its term.
              obtain ⟨rfl, sameLength⟩ := fits
              cases value with
              | ctor name values =>
                  obtain ⟨ids', resolved', denotesAll⟩ := denotes
                  obtain ⟨rfl, rfl⟩ : name' = name ∧ ids = ids' := by
                    simpa [resolved] using resolved'
                  refine (matchList_leaves computes distinctNames args distinct grounded all
                    denotesAll (all.length_eq.symm.trans sameLength.symm)).mono ?_ fun _ _ leaves => leaves
                  intro success later matched
                  exact matched.imp (fun _ _ => eval_ctor_eq_some_iff.mpr)
                    fun _ _ => eval_ctor_eq_some_iff.mp
              | _ => simp [TermStore.Denotes, resolved] at denotes
          · next misfit =>
              refine mismatch_leaves distinct grounded denotes fun ids' same sameLength => ?_
              rw [resolved, Option.some.injEq, GroundTerm.ctor.injEq] at same
              obtain ⟨rfl, rfl⟩ := same
              exact misfit ⟨rfl, sameLength.trans all.length_eq.symm⟩
      · next other =>
          exact mismatch_leaves distinct grounded denotes fun ids same => absurd same (other name ids)
  | .call function args, _, bindings, distinct, grounded, represents, id, value, denotes => by
      unfold matchValue
      refine .bind (eval_leaves computes distinctNames (.call function args) distinct grounded
        represents) (fun _ => .pure) ?_
      rintro result later ⟨settled, evaluated⟩
      exact .pure (.of_value settled grounded evaluated (denotes.mono settled.grown))

theorem matchList_leaves (computes : functions.Computes meaning) (distinctNames : names.Nodup) :
    (plans : List PlanTerm) → {terms : List Term} → {bindings : Bindings} →
      bindings.terms.Distinct → bindings.Grounded →
        RepresentsAll bindings.terms names plans terms → {ids : List TermId} →
          {values : List Value} → bindings.terms.DenotesAll ids values →
            terms.length = ids.length →
              LeavesWithRoom (matchList functions plans ids) bindings
                (fun success later => Bindings.Matched names bindings later success
                  (fun assignment => Term.evalList meaning assignment terms = some values)
                  (fun assignment => Term.evalList meaning assignment terms = some values))
                (fun _ later => later.terms.Distinct)
  | [], _, bindings, distinct, grounded, all, ids, values, denotes, sameLength => by
      obtain rfl := all
      obtain rfl : ids = [] := List.length_eq_zero_iff.mp sameLength.symm
      obtain rfl : values = [] := by
        cases values with
        | nil => rfl
        | cons => simp [TermStore.DenotesAll] at denotes
      unfold matchList
      exact .pure (.of_settled (.refl distinct) grounded (fun _ _ _ => rfl) fun _ _ _ => rfl)
  | plan :: plans, _, bindings, distinct, grounded, all, ids, values, denotes, sameLength => by
      obtain ⟨term, rest, rfl, first, others⟩ := all
      match ids, values, denotes, sameLength with
      | id :: ids, value :: values, denotes, sameLength =>
          unfold matchList
          refine .bind (matchValue_leaves computes distinctNames plan distinct grounded first
            denotes.1) (fun _ => .ite (interns_matchList functions plans ids) .pure) ?_
          intro success middle matched
          cases success with
          | true =>
              refine (matchList_leaves computes distinctNames plans matched.distinct
                matched.grounded (others.mono matched.extended.terms (List.prefix_refl _))
                (denotes.2.mono matched.extended.terms) (by simpa using sameLength)).mono ?_
                fun _ _ leaves => leaves
              intro success later matched'
              refine (matched.andThen matched.grounded matched').imp ?_ ?_
              · rintro assignment _ ⟨firstEq, othersEq⟩
                exact Term.evalList_cons_eq_some.mpr ⟨value, values, firstEq, othersEq, rfl⟩
              · intro assignment _ evaluated
                obtain ⟨value', values', firstEq, othersEq, same⟩ :=
                  Term.evalList_cons_eq_some.mp evaluated
                obtain ⟨rfl, rfl⟩ := List.cons.inj same
                exact ⟨firstEq, othersEq⟩
          | false =>
              refine .pure (matched.failed ?_)
              intro assignment evaluated
              obtain ⟨value', values', firstEq, -, same⟩ := Term.evalList_cons_eq_some.mp evaluated
              obtain ⟨rfl, rfl⟩ := List.cons.inj same
              exact firstEq

end

end PlanTerm

end Datalog
