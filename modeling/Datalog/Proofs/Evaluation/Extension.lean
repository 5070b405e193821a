import Datalog.Function.Builtin
import Datalog.Proofs.Planning.Folding
import Datalog.Proofs.Semantics.Rendering

/-!
# Matching as a search

A match takes a value apart along a term, and it evaluates the calls of the term.  Whether it succeeds is
a question about evaluation alone: can the slots that have no value be given values so that the term
evaluates to the number?  At most one choice of values for the slots of the term does this, and it is the
one that a successful match leaves behind.  Whatever comes of the match, undoing the bindings that it
made restores the substitution.
-/

namespace Datalog

/-! ## More values -/

namespace Substitution

/-- A substitution of the same slots in which the bound slots keep their values.  The order in which
slots were bound does not matter. -/
structure Refines (further substitution : Substitution) : Prop where
  length_eq : further.slots.length = substitution.slots.length
  keeps : ∀ (slot : Nat) (id : TermId), substitution.slots[slot]? = some (some id) →
    further.slots[slot]? = some (some id)

/-- A refinement that gives values to slots of a list only. -/
structure Fills (further : Substitution) (slots : List Nat) (substitution : Substitution) : Prop
    extends further.Refines substitution where
  elsewhere : ∀ slot : Nat, slot ∉ slots → further.slots[slot]? = substitution.slots[slot]?

def Binds (substitution : Substitution) (slots : List Nat) : Prop :=
  ∀ slot ∈ slots, ∃ id, substitution.slots[slot]? = some (some id)

variable {first second third : Substitution} {slots more : List Nat}

theorem Refines.refl (substitution : Substitution) : substitution.Refines substitution :=
  ⟨rfl, fun _ _ bound => bound⟩

theorem Refines.trans (right : third.Refines second) (left : second.Refines first) :
    third.Refines first :=
  ⟨right.length_eq.trans left.length_eq, fun slot id bound =>
    right.keeps slot id (left.keeps slot id bound)⟩

theorem Extends.refines (extended : second.Extends first) : second.Refines first :=
  ⟨extended.slots_length_eq, fun _ _ bound => extended.slots_of_bound bound⟩

theorem Refines.bind (refines : second.Refines first) {slot : Nat} {id : TermId}
    (given : second.slots[slot]? = some (some id)) : second.Refines (first.bind slot id) := by
  constructor
  · simpa [Substitution.bind] using refines.length_eq
  · intro other value bound
    by_cases here : slot = other
    · subst here
      have inside : slot < first.slots.length :=
        refines.length_eq ▸ (List.getElem?_eq_some_iff.mp given).1
      rw [Substitution.bind, List.getElem?_set_self inside] at bound
      exact given.trans bound
    · rw [Substitution.bind, List.getElem?_set_ne here] at bound
      exact refines.keeps other value bound

/-- A slot exists in a substitution if it does in a refinement. -/
theorem Refines.exists_slot (refines : second.Refines first) {slot : Nat} {value : Option TermId}
    (given : second.slots[slot]? = some value) : ∃ value', first.slots[slot]? = some value' := by
  have inside := (List.getElem?_eq_some_iff.mp given).1
  rw [refines.length_eq] at inside
  exact ⟨_, List.getElem?_eq_getElem inside⟩

theorem Binds.refine (binds : first.Binds slots) (refines : second.Refines first) :
    second.Binds slots := by
  intro slot member
  obtain ⟨id, bound⟩ := binds slot member
  exact ⟨id, refines.keeps slot id bound⟩

theorem Refines.eq_on (refines : second.Refines first) (binds : first.Binds slots) :
    ∀ slot ∈ slots, second.slots[slot]? = first.slots[slot]? := by
  intro slot member
  obtain ⟨id, bound⟩ := binds slot member
  rw [bound]
  exact refines.keeps slot id bound

/-- A substitution that binds every slot of a list is the only one to do so among its refinements that
fill no other slot. -/
theorem Fills.slots_eq (fills : third.Fills slots first) (fills' : second.Fills slots first)
    (binds : second.Binds slots) (refines : third.Refines second) : third.slots = second.slots := by
  apply List.ext_getElem?
  intro slot
  by_cases member : slot ∈ slots
  · exact refines.eq_on binds slot member
  · rw [fills.elsewhere slot member, fills'.elsewhere slot member]

/-- Bindings were added, to slots of a list only. -/
structure ExtendsWithin (later : Substitution) (slots : List Nat) (substitution : Substitution) :
    Prop where
  extended : later.Extends substitution
  elsewhere : ∀ slot : Nat, slot ∉ slots → later.slots[slot]? = substitution.slots[slot]?

namespace ExtendsWithin

theorem refl : first.ExtendsWithin slots first :=
  ⟨.refl _, fun _ _ => rfl⟩

theorem of_eq (same : second = first) : second.ExtendsWithin slots first :=
  same ▸ .refl

theorem trans (right : third.ExtendsWithin slots second) (left : second.ExtendsWithin slots first) :
    third.ExtendsWithin slots first :=
  ⟨right.extended.trans left.extended, fun slot absent =>
    (right.elsewhere slot absent).trans (left.elsewhere slot absent)⟩

theorem mono (within : second.ExtendsWithin slots first) (fewer : slots ⊆ more) :
    second.ExtendsWithin more first :=
  ⟨within.extended, fun slot absent => within.elsewhere slot fun member => absent (fewer member)⟩

theorem bind {slot : Nat} (unbound : first.slots[slot]? = some none) (id : TermId) :
    (first.bind slot id).ExtendsWithin [slot] first := by
  constructor
  · exact .bind (.refl first) unbound id
  · intro other absent
    have apart : slot ≠ other := fun same => absent (by simp [same])
    exact List.getElem?_set_ne apart

theorem fills (within : second.ExtendsWithin slots first) : second.Fills slots first :=
  ⟨within.extended.refines, within.elsewhere⟩

end ExtendsWithin

end Substitution

/-! ## The slots of a term -/

namespace PlanTerm

mutual

def slots : PlanTerm → List Nat
  | .slot number => [number]
  | .const _ => []
  | .ctor _ args | .call _ args => slotsList args

def slotsList : List PlanTerm → List Nat
  | [] => []
  | plan :: plans => slots plan ++ slotsList plans

end

mutual

def callSlots : PlanTerm → List Nat
  | .slot _ | .const _ => []
  | .ctor _ args => callSlotsList args
  | .call _ args => slotsList args

def callSlotsList : List PlanTerm → List Nat
  | [] => []
  | plan :: plans => callSlots plan ++ callSlotsList plans

end

variable {functions : Registry} {bindings later : Bindings} {id : TermId}

/-! ## What evaluation and matching come to -/

theorem ofTermM_eq_ok {α : Type} {computation : TermM α} {value : α} :
    BindM.ofTermM computation bindings = .ok value later ↔
      computation bindings.terms = .ok value later.terms ∧
        later.substitution = bindings.substitution := by
  unfold BindM.ofTermM
  cases computation bindings.terms with
  | ok result terms =>
      cases later
      simp only [EStateM.Result.ok.injEq, Bindings.mk.injEq]
      tauto
  | error error terms => simp

theorem internTerm_eq_ok {ground : GroundTerm} {store after : TermStore} :
    internTerm ground store = .ok id after ↔ store.intern ground = (id, after) := by
  change EStateM.Result.ok (store.intern ground).1 (store.intern ground).2 = .ok id after ↔ _
  rw [EStateM.Result.ok.injEq, Prod.ext_iff]

theorem slotValue_eq_ok {number : Nat} {value : Option TermId} :
    BindM.slotValue number bindings = .ok value later ↔
      bindings.substitution.slots[number]? = some value ∧ later = bindings := by
  unfold BindM.slotValue
  rw [bind_eq_ok]
  constructor
  · rintro ⟨start, middle, got, rest⟩
    cases got
    cases atSlot : bindings.substitution.slots[number]? with
    | some found =>
        rw [atSlot] at rest
        cases rest
        exact ⟨rfl, rfl⟩
    | none =>
        rw [atSlot] at rest
        cases rest
  · rintro ⟨atSlot, rfl⟩
    apply Exists.intro later
    apply Exists.intro later
    constructor
    · rfl
    · rw [atSlot]
      rfl

theorem eval_slot_eq_ok {number : Nat} :
    (PlanTerm.slot number).eval functions bindings = .ok id later ↔
      bindings.substitution.slots[number]? = some (some id) ∧ later = bindings := by
  unfold eval
  rw [bind_eq_ok]
  constructor
  · rintro ⟨value, middle, read, rest⟩
    obtain ⟨atSlot, rfl⟩ := slotValue_eq_ok.mp read
    cases value with
    | some present =>
        cases rest
        exact ⟨atSlot, rfl⟩
    | none => cases rest
  · rintro ⟨atSlot, rfl⟩
    exact ⟨some id, later, slotValue_eq_ok.mpr ⟨atSlot, rfl⟩, rfl⟩

theorem eval_const_eq_ok {present : TermId} :
    (PlanTerm.const present).eval functions bindings = .ok id later ↔
      present = id ∧ later = bindings := by
  unfold eval
  change EStateM.Result.ok present bindings = .ok id later ↔ _
  rw [EStateM.Result.ok.injEq, eq_comm (a := bindings)]

theorem eval_ctor_eq_ok {name : String} {args : List PlanTerm} :
    (PlanTerm.ctor name args).eval functions bindings = .ok id later ↔
      ∃ ids middle, evalList functions args bindings = .ok ids middle ∧
        middle.terms.intern (.ctor name ids) = (id, later.terms) ∧
          later.substitution = middle.substitution := by
  unfold eval
  rw [bind_eq_ok]
  simp only [ofTermM_eq_ok, internTerm_eq_ok]

theorem eval_call_eq_ok {name : String} {args : List PlanTerm} :
    (PlanTerm.call name args).eval functions bindings = .ok id later ↔
      ∃ ids middle, evalList functions args bindings = .ok ids middle ∧
        functions.call name ids middle.terms = .ok id later.terms ∧
          later.substitution = middle.substitution := by
  unfold eval
  rw [bind_eq_ok]
  simp only [ofTermM_eq_ok]

theorem evalList_nil_eq_ok {ids : List TermId} :
    evalList functions [] bindings = .ok ids later ↔ ids = [] ∧ later = bindings := by
  unfold evalList
  change EStateM.Result.ok [] bindings = .ok ids later ↔ _
  rw [EStateM.Result.ok.injEq, eq_comm (a := bindings), eq_comm (a := ([] : List TermId))]

theorem evalList_cons_eq_ok {plan : PlanTerm} {plans : List PlanTerm} {ids : List TermId} :
    evalList functions (plan :: plans) bindings = .ok ids later ↔
      ∃ first middle rest, plan.eval functions bindings = .ok first middle ∧
        evalList functions plans middle = .ok rest later ∧ ids = first :: rest := by
  rw [evalList]
  simp only [bind_eq_ok]
  constructor
  · rintro ⟨first, middle, firstEq, rest, last, restEq, same⟩
    cases same
    exact ⟨first, middle, rest, firstEq, restEq, rfl⟩
  · rintro ⟨first, middle, rest, firstEq, restEq, rfl⟩
    exact ⟨first, middle, firstEq, rest, later, restEq, rfl⟩

/-- A slot is compared if it is bound, and bound if it is not. -/
theorem matchSlot_eq_ok {number : Nat} {success : Bool} :
    (PlanTerm.slot number).matchValue functions id bindings = .ok success later ↔
      (∃ present, bindings.substitution.slots[number]? = some (some present) ∧
        success = decide (present = id) ∧ later = bindings) ∨
      (bindings.substitution.slots[number]? = some none ∧ success = true ∧
        later = { bindings with substitution := bindings.substitution.bind number id }) := by
  unfold matchValue
  rw [bind_eq_ok]
  constructor
  · rintro ⟨value, middle, read, rest⟩
    obtain ⟨atSlot, rfl⟩ := slotValue_eq_ok.mp read
    cases value with
    | some present =>
        cases rest
        exact .inl ⟨present, atSlot, rfl, rfl⟩
    | none =>
        cases rest
        exact .inr ⟨atSlot, rfl, rfl⟩
  · rintro (⟨present, atSlot, rfl, rfl⟩ | ⟨atSlot, rfl, rfl⟩)
    · exact ⟨some present, later, slotValue_eq_ok.mpr ⟨atSlot, rfl⟩, rfl⟩
    · exact ⟨none, bindings, slotValue_eq_ok.mpr ⟨atSlot, rfl⟩, rfl⟩

theorem matchConst_eq_ok {present : TermId} {success : Bool} :
    (PlanTerm.const present).matchValue functions id bindings = .ok success later ↔
      success = decide (present = id) ∧ later = bindings := by
  rw [matchValue]
  change EStateM.Result.ok (decide (present = id)) bindings = .ok success later ↔ _
  rw [EStateM.Result.ok.injEq, eq_comm (a := bindings), eq_comm (a := decide (present = id))]

/-- A value is taken apart if it has the constructor and as many arguments. -/
theorem matchCtor_eq_true {name : String} {args : List PlanTerm} :
    (PlanTerm.ctor name args).matchValue functions id bindings = .ok true later ↔
      ∃ ids, bindings.terms.resolve id = some (.ctor name ids) ∧ ids.length = args.length ∧
        matchList functions args ids bindings = .ok true later := by
  rw [matchValue, bind_eq_ok]
  constructor
  · rintro ⟨start, middle, got, matched⟩
    cases got
    cases resolved : bindings.terms.resolve id with
    | none =>
        rw [resolved] at matched
        cases matched
    | some ground =>
        rw [resolved] at matched
        cases ground with
        | ctor name' ids =>
            by_cases sameShape : name' = name ∧ ids.length = args.length
            · obtain ⟨rfl, length⟩ := sameShape
              simp only [length, and_self, if_true] at matched
              exact ⟨ids, rfl, length, matched⟩
            · simp only [sameShape, if_false] at matched
              cases matched
        | _ => cases matched
  · rintro ⟨ids, resolved, length, matched⟩
    apply Exists.intro bindings
    apply Exists.intro bindings
    constructor
    · rfl
    · rw [resolved]
      simpa only [length, and_self, if_true] using matched

theorem matchCall_eq_ok {name : String} {args : List PlanTerm} {success : Bool} :
    (PlanTerm.call name args).matchValue functions id bindings = .ok success later ↔
      ∃ result, (PlanTerm.call name args).eval functions bindings = .ok result later ∧
        success = decide (result = id) := by
  unfold matchValue
  rw [bind_eq_ok]
  constructor
  · rintro ⟨result, middle, evaluated, same⟩
    cases same
    exact ⟨result, evaluated, rfl⟩
  · rintro ⟨result, evaluated, rfl⟩
    exact ⟨result, later, evaluated, rfl⟩

theorem matchList_cons_eq_true {plan : PlanTerm} {plans : List PlanTerm} {ids : List TermId} :
    matchList functions (plan :: plans) (id :: ids) bindings = .ok true later ↔
      ∃ middle, plan.matchValue functions id bindings = .ok true middle ∧
        matchList functions plans ids middle = .ok true later := by
  rw [matchList, bind_eq_ok]
  constructor
  · rintro ⟨success, middle, first, rest⟩
    cases success with
    | true => exact ⟨middle, first, rest⟩
    | false => cases rest
  · rintro ⟨middle, first, rest⟩
    exact ⟨true, middle, first, rest⟩

/-! ## What is left alone -/

theorem ofTermM_keeps {α : Type} (computation : TermM α) :
    Leaves (BindM.ofTermM computation) bindings
      (fun _ later => later.substitution = bindings.substitution)
      (fun _ later => later.substitution = bindings.substitution) := by
  unfold Leaves BindM.ofTermM
  cases computation bindings.terms <;> rfl

theorem slotValue_keeps (number : Nat) :
    Leaves (BindM.slotValue number) bindings
      (fun value later => later = bindings ∧ bindings.substitution.slots[number]? = some value)
      (fun _ later => later = bindings) := by
  unfold BindM.slotValue
  rw [leaves_bind, leaves_get]
  dsimp only
  split
  · next value atSlot => exact ⟨rfl, atSlot⟩
  · exact rfl

mutual

theorem eval_keeps : (plan : PlanTerm) → (bindings : Bindings) →
    Leaves (plan.eval functions) bindings
      (fun _ later => later.substitution = bindings.substitution)
      (fun _ later => later.substitution = bindings.substitution)
  | .slot number, bindings => by
      rw [eval]
      apply ((slotValue_keeps number).mono (fun _ _ kept => kept.1) fun _ _ same =>
        congrArg Bindings.substitution same).bind
      rintro value _ rfl
      cases value <;> rfl
  | .const id, bindings => by
      rw [eval]
      exact rfl
  | .ctor name args, bindings => by
      rw [eval]
      apply (evalList_keeps args bindings).bind
      intro ids middle same
      exact same ▸ ofTermM_keeps _
  | .call function args, bindings => by
      rw [eval]
      apply (evalList_keeps args bindings).bind
      intro ids middle same
      exact same ▸ ofTermM_keeps _

theorem evalList_keeps : (plans : List PlanTerm) → (bindings : Bindings) →
    Leaves (evalList functions plans) bindings
      (fun _ later => later.substitution = bindings.substitution)
      (fun _ later => later.substitution = bindings.substitution)
  | [], bindings => by
      rw [evalList]
      exact rfl
  | plan :: plans, bindings => by
      rw [evalList]
      apply (eval_keeps plan bindings).bind
      intro id middle same
      apply Leaves.bind (same ▸ evalList_keeps plans middle)
      intro ids later same'
      exact same'

end

mutual

/-- Matching binds slots of the term only, and each at most once. -/
theorem matchValue_within : (plan : PlanTerm) → (id : TermId) → (bindings : Bindings) →
    Leaves (plan.matchValue functions id) bindings
      (fun _ later => later.substitution.ExtendsWithin plan.slots bindings.substitution)
      (fun _ later => later.substitution.ExtendsWithin plan.slots bindings.substitution)
  | .slot number, id, bindings => by
      rw [matchValue]
      apply ((slotValue_keeps number).imp_stopped fun _ _ same =>
        .of_eq (congrArg Bindings.substitution same)).bind
      rintro present _ ⟨rfl, atSlot⟩
      cases present with
      | some present => exact .refl
      | none => exact Substitution.ExtendsWithin.bind atSlot id
  | .const present, id, bindings => by
      rw [matchValue]
      exact .refl
  | .ctor name args, id, bindings => by
      rw [matchValue, leaves_bind, leaves_get]
      split
      · split
        · exact matchList_within args _ bindings
        · exact .refl
      · exact .refl
  | .call function args, id, bindings => by
      rw [matchValue]
      apply ((eval_keeps (.call function args) bindings).imp_stopped fun _ _ same =>
        .of_eq same).bind
      intro result later same
      exact .of_eq same

theorem matchList_within : (plans : List PlanTerm) → (ids : List TermId) → (bindings : Bindings) →
    Leaves (matchList functions plans ids) bindings
      (fun _ later => later.substitution.ExtendsWithin (slotsList plans) bindings.substitution)
      (fun _ later => later.substitution.ExtendsWithin (slotsList plans) bindings.substitution)
  | [], ids, bindings => by
      rw [matchList]
      · exact .refl
      · simp
  | plan :: plans, [], bindings => by
      rw [matchList]
      · exact .refl
      · simp
  | plan :: plans, id :: ids, bindings => by
      have here : plan.slots ⊆ slotsList (plan :: plans) := List.subset_append_left _ _
      have there : slotsList plans ⊆ slotsList (plan :: plans) := List.subset_append_right _ _
      rw [matchList]
      apply ((matchValue_within plan id bindings).mono (fun _ _ within => within) fun _ _ within =>
        within.mono here).bind
      intro success middle within
      cases success with
      | false => exact within.mono here
      | true =>
          exact (matchList_within plans ids middle).mono
            (fun _ _ within' => (within'.mono there).trans (within.mono here))
            fun _ _ within' => (within'.mono there).trans (within.mono here)

end

/-! ## What evaluation depends on -/

mutual

/-- Only the slots of a term matter for its evaluation. -/
theorem eval_of_eq_on : (plan : PlanTerm) → {bindings later : Bindings} → {id : TermId} →
    {other : Substitution} →
      (∀ slot ∈ plan.slots, other.slots[slot]? = bindings.substitution.slots[slot]?) →
        plan.eval functions bindings = .ok id later →
          plan.eval functions { bindings with substitution := other } =
            .ok id { later with substitution := other }
  | .slot number, bindings, later, id, other, same, evaluated => by
      obtain ⟨atSlot, rfl⟩ := eval_slot_eq_ok.mp evaluated
      apply eval_slot_eq_ok.mpr
      exact ⟨(same number (by simp [slots])).trans atSlot, rfl⟩
  | .const present, bindings, later, id, other, same, evaluated => by
      obtain ⟨rfl, rfl⟩ := eval_const_eq_ok.mp evaluated
      exact eval_const_eq_ok.mpr ⟨rfl, rfl⟩
  | .ctor name args, bindings, later, id, other, same, evaluated => by
      obtain ⟨ids, middle, argsEq, interned, -⟩ := eval_ctor_eq_ok.mp evaluated
      apply eval_ctor_eq_ok.mpr
      exact ⟨ids, _, evalList_of_eq_on args same argsEq, interned, rfl⟩
  | .call function args, bindings, later, id, other, same, evaluated => by
      obtain ⟨ids, middle, argsEq, called, -⟩ := eval_call_eq_ok.mp evaluated
      apply eval_call_eq_ok.mpr
      exact ⟨ids, _, evalList_of_eq_on args same argsEq, called, rfl⟩

theorem evalList_of_eq_on : (plans : List PlanTerm) → {bindings later : Bindings} →
    {ids : List TermId} → {other : Substitution} →
      (∀ slot ∈ slotsList plans, other.slots[slot]? = bindings.substitution.slots[slot]?) →
        evalList functions plans bindings = .ok ids later →
          evalList functions plans { bindings with substitution := other } =
            .ok ids { later with substitution := other }
  | [], bindings, later, ids, other, same, evaluated => by
      obtain ⟨rfl, rfl⟩ := evalList_nil_eq_ok.mp evaluated
      exact evalList_nil_eq_ok.mpr ⟨rfl, rfl⟩
  | plan :: plans, bindings, later, ids, other, same, evaluated => by
      obtain ⟨first, middle, rest, firstEq, restEq, rfl⟩ := evalList_cons_eq_ok.mp evaluated
      have kept := (eval_keeps plan bindings).of_ok firstEq
      have sameHere : ∀ slot ∈ plan.slots,
          other.slots[slot]? = bindings.substitution.slots[slot]? :=
        fun slot member => same slot (List.mem_append_left _ member)
      have sameThere : ∀ slot ∈ slotsList plans,
          other.slots[slot]? = middle.substitution.slots[slot]? :=
        fun slot member => kept ▸ same slot (List.mem_append_right _ member)
      apply evalList_cons_eq_ok.mpr
      exact ⟨first, _, rest, eval_of_eq_on plan sameHere firstEq,
        evalList_of_eq_on plans sameThere restEq, rfl⟩

end

mutual

/-- A term that has been evaluated has values in all of its slots. -/
theorem binds_of_eval : (plan : PlanTerm) → {bindings later : Bindings} → {id : TermId} →
    plan.eval functions bindings = .ok id later → bindings.substitution.Binds plan.slots
  | .slot number, bindings, later, id, evaluated => by
      obtain ⟨atSlot, rfl⟩ := eval_slot_eq_ok.mp evaluated
      intro slot member
      obtain rfl := List.mem_singleton.mp member
      exact ⟨id, atSlot⟩
  | .const present, bindings, later, id, evaluated => fun slot member => nomatch member
  | .ctor name args, bindings, later, id, evaluated => by
      obtain ⟨ids, middle, argsEq, -⟩ := eval_ctor_eq_ok.mp evaluated
      exact binds_of_evalList args argsEq
  | .call function args, bindings, later, id, evaluated => by
      obtain ⟨ids, middle, argsEq, -⟩ := eval_call_eq_ok.mp evaluated
      exact binds_of_evalList args argsEq

theorem binds_of_evalList : (plans : List PlanTerm) → {bindings later : Bindings} →
    {ids : List TermId} → evalList functions plans bindings = .ok ids later →
      bindings.substitution.Binds (slotsList plans)
  | [], bindings, later, ids, evaluated => fun slot member => nomatch member
  | plan :: plans, bindings, later, ids, evaluated => by
      obtain ⟨first, middle, rest, firstEq, restEq, -⟩ := evalList_cons_eq_ok.mp evaluated
      have kept := (eval_keeps plan bindings).of_ok firstEq
      intro slot member
      rcases List.mem_append.mp member with here | there
      · exact binds_of_eval plan firstEq slot here
      · exact kept ▸ binds_of_evalList plans restEq slot there

end

theorem evalList_length : (plans : List PlanTerm) → {bindings later : Bindings} →
    {ids : List TermId} → evalList functions plans bindings = .ok ids later →
      ids.length = plans.length
  | [], bindings, later, ids, evaluated => by
      obtain ⟨rfl, -⟩ := evalList_nil_eq_ok.mp evaluated
      rfl
  | plan :: plans, bindings, later, ids, evaluated => by
      obtain ⟨first, middle, rest, -, restEq, rfl⟩ := evalList_cons_eq_ok.mp evaluated
      exact congrArg (· + 1) (evalList_length plans restEq)

/-! ## Matching and evaluation

The number that is matched denotes a value in a store that holds every term once.  The terms only grow
from there, also where a call interns some, so that the numbers inside the value stay what they are. -/

section Search

variable {base store after : TermStore}

/-- What a number stands for when values were interned is what it stands for later. -/
theorem resolve_of_grown {value : Value} (grown : store.Extends base) (denotes : base.Denotes id value)
    {ground : GroundTerm} (resolved : store.resolve id = some ground) :
    base.resolve id = some ground := by
  obtain ⟨ground', resolved'⟩ := denotes.exists_resolve
  rw [resolved', ← grown.resolve_eq resolved', resolved]

/-- A number for a constructor denotes a value with this constructor. -/
theorem denotesAll_of_resolve {value : Value} {name : String} {ids : List TermId}
    (denotes : base.Denotes id value) (resolved : base.resolve id = some (.ctor name ids)) :
    ∃ values, base.DenotesAll ids values := by
  cases value with
  | ctor name' values =>
      obtain ⟨ids', resolved', all⟩ := denotes
      obtain ⟨-, rfl⟩ : name = name' ∧ ids = ids' := by simpa [resolved] using resolved'
      exact ⟨values, all⟩
  | _ =>
      simp only [TermStore.Denotes] at denotes
      simp [resolved] at denotes

/-- Interning a term again changes nothing, however many terms there are by now. -/
theorem intern_of_resolve (distinct : base.Distinct) (grown : store.Extends base)
    {ground : GroundTerm} (resolved : base.resolve id = some ground) :
    store.intern ground = (id, store) :=
  TermStore.intern_eq_mono grown (TermStore.intern_eq_of_resolve distinct resolved)

mutual

/-- After a successful match the term evaluates to the number, with whatever values further slots have,
and evaluation interns the terms that the match has interned. -/
theorem eval_of_match (distinct : base.Distinct) : (plan : PlanTerm) →
    {bindings later : Bindings} → {id : TermId} → {value : Value} → {further : Substitution} →
      bindings.terms.Extends base → base.Denotes id value →
        bindings.substitution.Binds plan.callSlots →
          plan.matchValue functions id bindings = .ok true later →
            further.Refines later.substitution →
              plan.eval functions { bindings with substitution := further } =
                .ok id { later with substitution := further }
  | .slot number, bindings, later, id, value, further, _, _, _, matched, refines => by
      apply eval_slot_eq_ok.mpr
      rcases matchSlot_eq_ok.mp matched with ⟨present, atSlot, same, rfl⟩ | ⟨atSlot, -, rfl⟩
      · obtain rfl := of_decide_eq_true same.symm
        exact ⟨refines.keeps number present atSlot, rfl⟩
      · have inside := (List.getElem?_eq_some_iff.mp atSlot).1
        have bound := List.getElem?_set_self (a := some id) inside
        exact ⟨refines.keeps number id bound, rfl⟩
  | .const present, bindings, later, id, value, further, _, _, _, matched, _ => by
      obtain ⟨same, rfl⟩ := matchConst_eq_ok.mp matched
      exact eval_const_eq_ok.mpr ⟨of_decide_eq_true same.symm, rfl⟩
  | .ctor name args, bindings, later, id, value, further, grown, denotes, bound, matched, refines => by
      obtain ⟨ids, resolved, length, matchedArgs⟩ := matchCtor_eq_true.mp matched
      have resolved' := resolve_of_grown grown denotes resolved
      obtain ⟨values, denotesArgs⟩ := denotesAll_of_resolve denotes resolved'
      have grown' : later.terms.Extends base :=
        ((interns_matchList functions args ids bindings).of_ok matchedArgs).trans grown
      apply eval_ctor_eq_ok.mpr
      exact ⟨ids, _, evalList_of_match distinct args grown denotesArgs length bound matchedArgs refines,
        intern_of_resolve distinct grown' resolved', rfl⟩
  | .call function args, bindings, later, id, value, further, _, _, bound, matched, refines => by
      obtain ⟨result, evaluated, same⟩ := matchCall_eq_ok.mp matched
      obtain rfl := of_decide_eq_true same.symm
      have kept := (eval_keeps _ bindings).of_ok evaluated
      rw [kept] at refines
      exact eval_of_eq_on _ (refines.eq_on bound) evaluated

theorem evalList_of_match (distinct : base.Distinct) : (plans : List PlanTerm) →
    {bindings later : Bindings} → {ids : List TermId} → {values : List Value} →
      {further : Substitution} →
        bindings.terms.Extends base → base.DenotesAll ids values → ids.length = plans.length →
          bindings.substitution.Binds (callSlotsList plans) →
            matchList functions plans ids bindings = .ok true later →
              further.Refines later.substitution →
                evalList functions plans { bindings with substitution := further } =
                  .ok ids { later with substitution := further }
  | [], bindings, later, ids, values, further, _, _, length, _, matched, _ => by
      obtain rfl := List.length_eq_zero_iff.mp length
      rw [matchList] at matched
      · cases matched
        exact evalList_nil_eq_ok.mpr ⟨rfl, rfl⟩
      · simp
  | plan :: plans, bindings, later, id :: ids, value :: values, further, grown, denotes, length, bound,
      matched, refines => by
      obtain ⟨middle, first, rest⟩ := matchList_cons_eq_true.mp matched
      have within := (matchValue_within plan id bindings).of_ok first
      have within' := (matchList_within plans ids middle).of_ok rest
      have grown' : middle.terms.Extends base :=
        ((interns_matchValue functions plan id bindings).of_ok first).trans grown
      have boundHere : bindings.substitution.Binds plan.callSlots :=
        fun slot member => bound slot (List.mem_append_left _ member)
      have boundThere : middle.substitution.Binds (callSlotsList plans) :=
        Substitution.Binds.refine (fun slot member => bound slot (List.mem_append_right _ member))
          within.extended.refines
      apply evalList_cons_eq_ok.mpr
      exact ⟨id, _, ids, eval_of_match distinct plan grown denotes.1 boundHere first
          (refines.trans within'.extended.refines),
        evalList_of_match distinct plans grown' denotes.2 (Nat.succ.inj length) boundThere rest refines,
        rfl⟩

end

mutual

/-- If the term evaluates to the number once further slots have values, the match succeeds and gives
slots these values. -/
theorem match_of_eval (distinct : base.Distinct) : (plan : PlanTerm) →
    {bindings last : Bindings} → {id : TermId} → {value : Value} → {further : Substitution} →
      bindings.terms.Extends base → base.Denotes id value →
        bindings.substitution.Binds plan.callSlots → further.Refines bindings.substitution →
          plan.eval functions { bindings with substitution := further } = .ok id last →
            last.terms.HasRoom →
              ∃ later, plan.matchValue functions id bindings = .ok true later ∧
                later.terms = last.terms ∧ further.Refines later.substitution
  | .slot number, bindings, last, id, value, further, _, _, _, refines, evaluated, _ => by
      obtain ⟨given, rfl⟩ := eval_slot_eq_ok.mp evaluated
      obtain ⟨present, atSlot⟩ := refines.exists_slot given
      cases present with
      | some present =>
          obtain rfl : present = id := by
            simpa [refines.keeps number present atSlot] using given
          exact ⟨bindings, matchSlot_eq_ok.mpr (.inl ⟨present, atSlot, by simp, rfl⟩), rfl, refines⟩
      | none =>
          exact ⟨_, matchSlot_eq_ok.mpr (.inr ⟨atSlot, rfl, rfl⟩), rfl, refines.bind given⟩
  | .const present, bindings, last, id, value, further, _, _, _, refines, evaluated, _ => by
      obtain ⟨rfl, rfl⟩ := eval_const_eq_ok.mp evaluated
      exact ⟨bindings, matchConst_eq_ok.mpr ⟨by simp, rfl⟩, rfl, refines⟩
  | .ctor name args, bindings, last, id, value, further, grown, denotes, bound, refines, evaluated,
      room => by
      obtain ⟨ids, middle, argsEq, interned, -⟩ := eval_ctor_eq_ok.mp evaluated
      have grownMiddle : middle.terms.Extends base :=
        ((interns_evalList functions args _).of_ok argsEq).trans grown
      have grownLast : last.terms.Extends middle.terms := by
        have grown' := TermStore.extends_intern middle.terms (.ctor name ids)
        rwa [interned] at grown'
      have resolved : base.resolve id = some (.ctor name ids) := by
        apply resolve_of_grown (grownLast.trans grownMiddle) denotes
        have handedOut := @TermStore.resolve_intern middle.terms (.ctor name ids)
        rw [interned] at handedOut
        exact handedOut room
      obtain ⟨values, denotesArgs⟩ := denotesAll_of_resolve denotes resolved
      -- The term is there already, so that nothing is interned for it.
      have sameTerms : middle.terms = last.terms := by
        rw [intern_of_resolve distinct grownMiddle resolved] at interned
        exact congrArg Prod.snd interned
      obtain ⟨later, matched, laterEq, refines'⟩ := matchList_of_eval distinct args grown denotesArgs
        bound refines argsEq (grownLast.hasRoom room)
      exact ⟨later, matchCtor_eq_true.mpr ⟨ids, grown.resolve_eq resolved,
        evalList_length args argsEq, matched⟩, laterEq.trans sameTerms, refines'⟩
  | .call function args, bindings, last, id, value, further, _, _, bound, refines, evaluated, _ => by
      have kept := (eval_keeps _ _).of_ok evaluated
      have same : ∀ slot ∈ (PlanTerm.call function args).slots,
          bindings.substitution.slots[slot]? = further.slots[slot]? :=
        fun slot member => (refines.eq_on bound slot member).symm
      have evaluated' := eval_of_eq_on (.call function args) same evaluated
      exact ⟨_, matchCall_eq_ok.mpr ⟨id, evaluated', by simp⟩, rfl, refines⟩

theorem matchList_of_eval (distinct : base.Distinct) : (plans : List PlanTerm) →
    {bindings last : Bindings} → {ids : List TermId} → {values : List Value} →
      {further : Substitution} →
        bindings.terms.Extends base → base.DenotesAll ids values →
          bindings.substitution.Binds (callSlotsList plans) → further.Refines bindings.substitution →
            evalList functions plans { bindings with substitution := further } = .ok ids last →
              last.terms.HasRoom →
                ∃ later, matchList functions plans ids bindings = .ok true later ∧
                  later.terms = last.terms ∧ further.Refines later.substitution
  | [], bindings, last, ids, values, further, _, _, _, refines, evaluated, _ => by
      obtain ⟨rfl, rfl⟩ := evalList_nil_eq_ok.mp evaluated
      apply Exists.intro bindings
      rw [matchList]
      · exact ⟨rfl, rfl, refines⟩
      · simp
  | plan :: plans, bindings, last, ids, values, further, grown, denotes, bound, refines, evaluated,
      room => by
      obtain ⟨id, middle, rest, firstEq, restEq, rfl⟩ := evalList_cons_eq_ok.mp evaluated
      cases values with
      | nil => exact denotes.elim
      | cons value values =>
          have more := (interns_evalList functions plans middle).of_ok restEq
          have boundHere : bindings.substitution.Binds plan.callSlots :=
            fun slot member => bound slot (List.mem_append_left _ member)
          obtain ⟨between, first, betweenEq, refines'⟩ := match_of_eval distinct plan grown denotes.1
            boundHere refines firstEq (more.hasRoom room)
          have within := (matchValue_within plan id bindings).of_ok first
          have grown' : between.terms.Extends base :=
            ((interns_matchValue functions plan id bindings).of_ok first).trans grown
          have boundThere : between.substitution.Binds (callSlotsList plans) :=
            Substitution.Binds.refine (fun slot member => bound slot (List.mem_append_right _ member))
              within.extended.refines
          have kept : middle.substitution = further := (eval_keeps plan _).of_ok firstEq
          have sameMiddle : middle = { between with substitution := further } := by
            rw [betweenEq, ← kept]
          rw [sameMiddle] at restEq
          obtain ⟨later, others, laterEq, refines''⟩ := matchList_of_eval distinct plans grown' denotes.2
            boundThere refines' restEq room
          exact ⟨later, matchList_cons_eq_true.mpr ⟨between, first, others⟩, laterEq, refines''⟩

end

end Search

/-- With some values in its slots a term evaluates to a number, and the terms do not run full on the
way. -/
def EvaluatesTo (functions : Registry) (terms : TermStore) (substitution : Substitution)
    (plan : PlanTerm) (id : TermId) : Prop :=
  ∃ last : Bindings, plan.eval functions { terms, substitution } = .ok id last ∧ last.terms.HasRoom

/-- The outcome of a match can be undone, and it leaves alone what was bound before. -/
structure Undone (start later : Bindings) : Prop where
  refines : later.substitution.Refines start.substitution
  rollback_eq : later.substitution.rollback start.substitution.checkpoint = start.substitution

theorem undone_of_within {start : Bindings} {slots : List Nat}
    (within : later.substitution.ExtendsWithin slots start.substitution) : Undone start later :=
  ⟨within.extended.refines, within.extended.rollback_eq⟩

/-- If the slots underneath the calls of a term have values, a match that comes to an answer succeeds if
and only if further slots can be given values so that the term evaluates to the number.  It leaves the
only values for the slots of the term with which this is so.  However the match comes out, undoing its
bindings restores the substitution. -/
theorem matchValue_finds_extension (plan : PlanTerm) {start : Bindings} {id : TermId} {value : Value}
    (distinct : start.terms.Distinct) (interned : start.terms.Denotes id value)
    (bound : start.substitution.Binds plan.callSlots) :
    Leaves (plan.matchValue functions id) start
      (fun success later =>
        (later.terms.HasRoom → (success = true ↔ ∃ further : Substitution,
          further.Refines start.substitution ∧
            plan.EvaluatesTo functions start.terms further id)) ∧
        (success = true →
          later.substitution.Fills plan.slots start.substitution ∧
          plan.eval functions { start with substitution := later.substitution } = .ok id later ∧
          ∀ further : Substitution, further.Fills plan.slots start.substitution →
            plan.EvaluatesTo functions start.terms further id →
              further.slots = later.substitution.slots) ∧
        Undone start later)
      (fun _ later => Undone start later) := by
  have within := @matchValue_within functions plan id start
  unfold Leaves at within ⊢
  cases outcome : plan.matchValue functions id start with
  | error error later =>
      rw [outcome] at within
      exact undone_of_within within
  | ok success later =>
      rw [outcome] at within
      -- Evaluation under a refinement can be retraced by matching, which binds no more than the refinement.
      have complete : ∀ further : Substitution, further.Refines start.substitution →
          plan.EvaluatesTo functions start.terms further id →
            success = true ∧ further.Refines later.substitution := by
        rintro further refines ⟨last, evaluated, room⟩
        obtain ⟨later', matched, -, refines'⟩ :=
          match_of_eval distinct plan (.refl _) interned bound refines evaluated room
        rw [outcome] at matched
        injection matched with isTrue same
        exact ⟨isTrue, same ▸ refines'⟩
      have sound : success = true →
          plan.eval functions { start with substitution := later.substitution } = .ok id later := by
        rintro rfl
        exact eval_of_match distinct plan (.refl _) interned bound outcome (.refl _)
      constructor
      · intro room
        constructor
        · intro isTrue
          exact ⟨later.substitution, within.extended.refines, later, sound isTrue, room⟩
        · rintro ⟨further, refines, evaluates⟩
          exact (complete further refines evaluates).1
      constructor
      · intro isTrue
        have evaluated := sound isTrue
        constructor
        · exact within.fills
        constructor
        · exact evaluated
        · intro further fills evaluates
          have filled := binds_of_eval plan evaluated
          -- Evaluation has given every slot a value, so that nothing is left to choose.
          apply fills.slots_eq within.fills filled
          exact (complete further fills.toRefines evaluates).2
      · exact undone_of_within within

end PlanTerm

/-! ## A match with a repeated variable and a call -/

namespace Sample

/-- A pair of a number and a box of it, with a sum in between. -/
def searchPlan : PlanTerm :=
  .ctor "triple" [.slot 0, .call "add" [.slot 1, .const ⟨1⟩], .ctor "box" [.slot 0]]

/-- The value is interned, and so are the terms that it is made of. -/
def searchStart : Bindings where
  terms := { terms := #[.int 41, .int 1, .int 42, .int 5, .ctor "box" [⟨3⟩],
    .ctor "triple" [⟨3⟩, ⟨2⟩, ⟨4⟩]] }
  substitution := { slots := [none, some ⟨0⟩, none], trail := [1] }

def searchEnd : Bindings where
  terms := searchStart.terms
  substitution := { slots := [some ⟨3⟩, some ⟨0⟩, none], trail := [1, 0] }

end Sample

theorem matchValue_finds_extension_sample :
    Sample.searchStart.terms.Distinct ∧
      Sample.searchStart.terms.Denotes ⟨5⟩ (.ctor "triple" [.int 5, .int 42, .ctor "box" [.int 5]]) ∧
      Sample.searchStart.substitution.Binds Sample.searchPlan.callSlots ∧
      Sample.searchPlan.matchValue .builtins ⟨5⟩ Sample.searchStart = .ok true Sample.searchEnd ∧
      (∀ further : Substitution,
        further.Fills Sample.searchPlan.slots Sample.searchStart.substitution →
          Sample.searchPlan.EvaluatesTo .builtins Sample.searchStart.terms further ⟨5⟩ →
            further.slots = [some ⟨3⟩, some ⟨0⟩, none]) ∧
      Sample.searchEnd.substitution.rollback 1 = Sample.searchStart.substitution := by
  have distinct : Sample.searchStart.terms.Distinct := by
    simp [TermStore.Distinct, Sample.searchStart]
  have interned : Sample.searchStart.terms.Denotes ⟨5⟩
      (.ctor "triple" [.int 5, .int 42, .ctor "box" [.int 5]]) :=
    ⟨[⟨3⟩, ⟨2⟩, ⟨4⟩], rfl, rfl, rfl, ⟨[⟨3⟩], rfl, rfl, trivial⟩, trivial⟩
  have bound : Sample.searchStart.substitution.Binds Sample.searchPlan.callSlots := by
    intro slot member
    obtain rfl : slot = 1 := by
      simpa [Sample.searchPlan, PlanTerm.callSlots, PlanTerm.callSlotsList, PlanTerm.slotsList,
        PlanTerm.slots] using member
    exact ⟨⟨0⟩, rfl⟩
  have matched : Sample.searchPlan.matchValue .builtins ⟨5⟩ Sample.searchStart =
      .ok true Sample.searchEnd := by
    with_unfolding_all rfl
  obtain ⟨-, found, undone⟩ :=
    (PlanTerm.matchValue_finds_extension Sample.searchPlan distinct interned bound).of_ok matched
  exact ⟨distinct, interned, bound, matched, (found rfl).2.2, undone.rollback_eq⟩

end Datalog
