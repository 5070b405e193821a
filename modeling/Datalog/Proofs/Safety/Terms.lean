import Datalog.Proofs.Evaluation.Columns
import Datalog.Proofs.Planning.Terms

/-!
# Terms whose variables are known

A term can be evaluated once the slots of its variables have values, and matched against a value once
the slots of the variables underneath its calls have.  As terms are matched from left to right, an
argument may give them their values just in time.  All slots that are read exist, and nothing fails but
the calls of registered functions and the calls that read a variable too early.
-/

namespace Datalog

/-! ## Calls that fail -/

/-- A failure that a function or a solver is to blame for. -/
inductive EvalError.IsFault : EvalError → Prop
  | function (name text : String) : IsFault (.function name text)
  | solver (name text : String) : IsFault (.solver name text)
  | panicked (text : String) : IsFault (.panicked text)

/-- A call of a registered function or solver gives an error: it reports a failure of its own or
panics. -/
structure Registry.Raises (functions : Registry) (error : EvalError) : Prop where
  called : ∃ name args store later, functions.contains name = true ∧
    functions.call name args store = .error error later
  fault : error.IsFault

/-- A task stops because a call of a registered function or solver has failed, and not because of a
defect of its plan. -/
def TaskError.ComesFromCall (functions : Registry) : TaskError → Prop
  | .failed error => functions.Raises error
  | .defect _ => False

/-- A variable was to be read whose slot has no value. -/
def TaskError.IsUnbound (error : TaskError) : Prop :=
  ∃ slot : Nat, error = .failed (.nonGround s!"variable slot {slot}")

/-- A call has failed or, only if something is early, a variable without a value was to be read. -/
def TaskError.StopsIf (functions : Registry) (early : Prop) (error : TaskError) : Prop :=
  error.ComesFromCall functions ∨ early ∧ error.IsUnbound

namespace TaskError.StopsIf

variable {functions : Registry} {early earlier : Prop} {error : TaskError}

theorem mono (stops : error.StopsIf functions early) (implied : early → earlier) :
    error.StopsIf functions earlier :=
  stops.imp_right fun both => ⟨implied both.1, both.2⟩

/-- Where nothing is early, a call is to blame. -/
theorem comesFromCall (stops : error.StopsIf functions early) (timely : ¬ early) :
    error.ComesFromCall functions :=
  stops.resolve_right fun both => timely both.1

end TaskError.StopsIf

variable {functions : Registry} {names : List String} {known known' : Set String}

namespace Registry

theorem settle_faults {α : Type} {describe : String → EvalError}
    (describes : ∀ text, (describe text).IsFault) (outcome : TermStore → Except Fault α × TermStore)
    (store : TermStore) :
    Leaves (fun store => settle describe (outcome store)) store (fun _ _ => True)
      fun error _ => error.IsFault := by
  unfold Leaves
  dsimp only
  cases outcome store with
  | mk result later =>
      cases result with
      | ok value => trivial
      | error fault =>
          cases fault with
          | message text => exact describes text
          | panic payload => exact .panicked _

theorem askSolver_faults (name : String) (solver : Solver) (negate : Bool) (args : List TermId)
    (store : TermStore) :
    Leaves (askSolver name solver negate args) store (fun _ _ => True)
      fun error _ => error.IsFault := by
  unfold askSolver
  split
  · extract_lets answering
    have answers : ∀ assertion later, Leaves (answering assertion) later (fun _ _ => True)
        fun error _ => error.IsFault := by
      intro assertion later
      have checked := settle_faults (.solver name) (fun store => solver.check store assertion) later
      refine checked.bind fun answer last _ => ?_
      cases answer with
      | sat | unsat => exact trivial
      | unknown => exact .solver _ _
    split
    · exact leaves_bind.mpr (answers _ _)
    · exact answers _ _
  · exact .solver _ _

/-- A registered function or solver is to blame for the failure of its call. -/
theorem call_faults {name : String} (registered : functions.contains name = true)
    (args : List TermId) (store : TermStore) :
    Leaves (functions.call name args) store (fun _ _ => True) fun error _ => error.IsFault := by
  unfold call
  split
  · next missing => simp [contains, missing] at registered
  · next function _ => exact settle_faults (.function name) (function.apply · args) store
  · exact askSolver_faults _ _ _ _ _

theorem call_raises {name : String} (registered : functions.contains name = true)
    (args : List TermId) (store : TermStore) :
    Leaves (functions.call name args) store (fun _ _ => True) fun error _ => functions.Raises error := by
  have faults := call_faults registered args store
  unfold Leaves at faults ⊢
  cases outcome : functions.call name args store with
  | ok => trivial
  | error error later =>
      rw [outcome] at faults
      exact ⟨⟨name, args, store, later, registered, outcome⟩, faults⟩

/-- Where nothing is registered, no call can fail. -/
theorem not_raises_empty (error : EvalError) : ¬ ({} : Registry).Raises error := by
  rintro ⟨⟨name, args, store, later, registered, -⟩, -⟩
  simp [contains, find?] at registered

end Registry

/-! ## Known variables -/

/-- A substitution has the slots of a plan, and those of some variables have values. -/
structure Substitution.Knows (names : List String) (known : Set String)
    (substitution : Substitution) : Prop where
  length_eq : substitution.slots.length = names.length
  bound : ∀ name ∈ known, ∀ slot : Nat, names[slot]? = some name →
    ∃ value, substitution.slots[slot]? = some (some value)

/-- A slot of a variable has a value. -/
def Substitution.Values (names : List String) (name : String) (substitution : Substitution) : Prop :=
  ∃ (slot : Nat) (value : TermId),
    names[slot]? = some name ∧ substitution.slots[slot]? = some (some value)

namespace Substitution.Knows

variable {substitution later : Substitution}

/-- A variable with a value is known, as it has one slot only. -/
theorem of_values (distinctNames : names.Nodup)
    (length : substitution.slots.length = names.length)
    (values : ∀ name ∈ known, substitution.Values names name) : substitution.Knows names known := by
  refine ⟨length, fun name isKnown slot named => ?_⟩
  obtain ⟨place, value, named', bound⟩ := values name isKnown
  have inside := (List.getElem?_eq_some_iff.mp named).1
  obtain rfl : slot = place :=
    (List.getElem?_inj inside distinctNames).mp (named.trans named'.symm)
  exact ⟨value, bound⟩

theorem mono (knows : substitution.Knows names known) (fewer : known' ⊆ known) :
    substitution.Knows names known' :=
  ⟨knows.length_eq, fun name member => knows.bound name (fewer member)⟩

theorem extend (knows : substitution.Knows names known) (extended : later.Extends substitution) :
    later.Knows names known := by
  refine ⟨extended.slots_length_eq.trans knows.length_eq, fun name member slot named => ?_⟩
  obtain ⟨value, atSlot⟩ := knows.bound name member slot named
  exact ⟨value, extended.slots_of_bound atSlot⟩

theorem union (knows : substitution.Knows names known) (knows' : substitution.Knows names known') :
    substitution.Knows names (known ∪ known') :=
  ⟨knows.length_eq, fun name member => member.elim (knows.bound name) (knows'.bound name)⟩

theorem unbound (names : List String) : (Substitution.unbound names.length).Knows names ∅ :=
  ⟨by simp [Substitution.unbound], fun _ member => member.elim⟩

theorem bind (knows : substitution.Knows names known) (distinctNames : names.Nodup) {slot : Nat}
    {name : String} (named : names[slot]? = some name) (value : TermId) :
    (substitution.bind slot value).Knows names {name} := by
  have inside := (List.getElem?_eq_some_iff.mp named).1
  refine ⟨by simp [Substitution.bind, knows.length_eq], ?_⟩
  rintro other rfl place named'
  obtain rfl : slot = place :=
    (List.getElem?_inj inside distinctNames).mp (named.trans named'.symm)
  exact ⟨value, by simp [Substitution.bind, knows.length_eq, inside]⟩

end Substitution.Knows

/-- A substitution has the slots of a plan, and no other variables than certain ones have values. -/
structure Substitution.KnowsOnly (names known : List String) (substitution : Substitution) :
    Prop where
  length_eq : substitution.slots.length = names.length
  only : ∀ name, substitution.Values names name → name ∈ known

namespace Substitution.KnowsOnly

variable {substitution : Substitution} {few many : List String}

theorem mono (knows : substitution.KnowsOnly names few) (more : few ⊆ many) :
    substitution.KnowsOnly names many :=
  ⟨knows.length_eq, fun name values => more (knows.only name values)⟩

theorem unbound (names : List String) : (Substitution.unbound names.length).KnowsOnly names [] := by
  refine ⟨by simp [Substitution.unbound], fun name values => ?_⟩
  obtain ⟨slot, value, -, bound⟩ := values
  simp [Substitution.unbound, List.getElem?_replicate] at bound

theorem bind (knows : substitution.KnowsOnly names few) {slot : Nat} {name : String}
    (named : names[slot]? = some name) (value : TermId) :
    (substitution.bind slot value).KnowsOnly names (few ++ [name]) := by
  refine ⟨by simp [Substitution.bind, knows.length_eq], fun other values => ?_⟩
  obtain ⟨place, value', named', bound⟩ := values
  by_cases here : slot = place
  · subst here
    obtain rfl : name = other := Option.some.inj (named.symm.trans named')
    exact List.mem_append_right _ (List.mem_singleton_self name)
  · rw [Substitution.bind, List.getElem?_set_ne here] at bound
    exact List.mem_append_left _ (knows.only other ⟨place, value', named', bound⟩)

end Substitution.KnowsOnly

theorem BindM.slotValue_safe {bindings : Bindings}
    (knows : bindings.substitution.Knows names known) {slot : Nat} {name : String}
    (named : names[slot]? = some name) {stopped : TaskError → Bindings → Prop} :
    Leaves (BindM.slotValue slot) bindings
      (fun value later => later = bindings ∧ bindings.substitution.slots[slot]? = some value)
      stopped := by
  have inside : slot < bindings.substitution.slots.length :=
    knows.length_eq ▸ (List.getElem?_eq_some_iff.mp named).1
  unfold slotValue
  rw [leaves_bind, leaves_get]
  dsimp only
  rw [List.getElem?_eq_getElem inside]
  exact ⟨rfl, rfl⟩

theorem BindM.ofTermM_safe {α : Type} {computation : TermM α} {bindings : Bindings}
    (leaves : Leaves computation bindings.terms (fun _ _ => True)
      fun error _ => functions.Raises error) :
    Leaves (BindM.ofTermM computation) bindings
      (fun _ later => later.substitution = bindings.substitution)
      fun error _ => error.ComesFromCall functions := by
  unfold Leaves at leaves ⊢
  unfold ofTermM
  cases outcome : computation bindings.terms with
  | ok value terms => rfl
  | error error terms =>
      rw [outcome] at leaves
      exact leaves

/-- A match may bind slots, and if it succeeds certain variables are known. -/
def Bindings.Learns (names : List String) (known : Set String) (bindings : Bindings) (success : Bool)
    (later : Bindings) : Prop :=
  later.substitution.Extends bindings.substitution ∧
    (success = true → later.substitution.Knows names known)

theorem Bindings.Learns.mono {bindings later : Bindings} {success : Bool}
    (learns : bindings.Learns names known success later) (fewer : known' ⊆ known) :
    bindings.Learns names known' success later :=
  ⟨learns.1, fun isSuccess => (learns.2 isSuccess).mono fewer⟩

/-! ## Variables that are read early -/

namespace Term

mutual

theorem mem_vars_of_mem_callVars :
    (term : Term) → {name : String} → name ∈ term.callVars → name ∈ term.vars
  | .var _, _, member | .bool _, _, member | .int _, _, member | .str _, _, member => by
      simp [callVars] at member
  | .ctor _ args, _, member => mem_varsList_of_mem_callVarsList args member
  | .call _ _, _, member => member

theorem mem_varsList_of_mem_callVarsList :
    (terms : List Term) → {name : String} → name ∈ callVarsList terms → name ∈ varsList terms
  | [], _, member => by simp [callVarsList] at member
  | term :: terms, _, member =>
      List.mem_append.mpr ((List.mem_append.mp member).imp (mem_vars_of_mem_callVars term)
        (mem_varsList_of_mem_callVarsList terms))

end

mutual

/-- The variables that the calls in a term read before they have values, if the term is matched from left
to right and some variables have values at the start. -/
def early (known : List String) : Term → List String
  | .var _ | .bool _ | .int _ | .str _ => []
  | .ctor _ args => earlyList known args
  | .call _ args => (varsList args).filter (· ∉ known)

/-- The variables that the calls in several terms read before they have values. -/
def earlyList (known : List String) : List Term → List String
  | [] => []
  | term :: terms => early known term ++ earlyList (known ++ vars term) terms

end

mutual

/-- Nothing is read early if all variables underneath calls have values at the start. -/
theorem early_eq_nil : (term : Term) → {known : List String} →
    (∀ name ∈ term.callVars, name ∈ known) → term.early known = []
  | .var _, _, _ | .bool _, _, _ | .int _, _, _ | .str _, _, _ => rfl
  | .ctor _ args, _, inKnown => earlyList_eq_nil args inKnown
  | .call _ args, _, inKnown => by
      unfold early
      unfold callVars at inKnown
      simpa using inKnown

theorem earlyList_eq_nil : (terms : List Term) → {known : List String} →
    (∀ name ∈ callVarsList terms, name ∈ known) → earlyList known terms = []
  | [], _, _ => rfl
  | term :: terms, known, inKnown => by
      unfold callVarsList at inKnown
      obtain ⟨here, there⟩ := List.forall_mem_append.mp inKnown
      have rest : ∀ name ∈ callVarsList terms, name ∈ known ++ vars term :=
        fun name member => List.mem_append_left _ (there name member)
      unfold earlyList
      rw [early_eq_nil term here, earlyList_eq_nil terms rest, List.append_nil]

end

end Term

namespace PlanTerm

variable {store : TermStore}

/-! ## Evaluation -/

mutual

/-- A term is evaluated if its variables have values, and unless one of its calls fails.  What is not
known may have a value nevertheless. -/
theorem eval_reads : (plan : PlanTerm) → {term : Term} → {bindings : Bindings} →
    plan.Represents store names term → plan.Callable functions →
      bindings.substitution.Knows names known →
        Leaves (plan.eval functions) bindings
          (fun _ later => later.substitution = bindings.substitution ∧
            ∀ name ∈ term.vars, bindings.substitution.Values names name)
          fun error _ => error.StopsIf functions (¬ ∀ name ∈ term.vars, name ∈ known)
  | .slot number, _, bindings, represents, _, knows => by
      obtain ⟨name, rfl, named⟩ := represents
      unfold eval
      apply (BindM.slotValue_safe knows named).bind
      rintro found later ⟨rfl, atSlot⟩
      cases found with
      | some value =>
          refine ⟨rfl, fun other member => ?_⟩
          obtain rfl : other = name := by simpa [Term.vars] using member
          exact ⟨number, value, named, atSlot⟩
      | none =>
          refine .inr ⟨fun inKnown => ?_, number, rfl⟩
          obtain ⟨value, bound⟩ := knows.bound name (inKnown name (by simp [Term.vars])) number named
          cases atSlot.symm.trans bound
  | .const id, _, bindings, represents, _, _ => by
      obtain ⟨value, rfl, -⟩ := represents
      unfold eval
      exact ⟨rfl, by simp [Value.vars_toTerm]⟩
  | .ctor name args, _, bindings, represents, callable, knows => by
      obtain ⟨terms, rfl, all⟩ := represents
      unfold eval
      apply (evalList_reads args all callable knows).bind
      rintro ids middle ⟨-, same, values⟩
      have interned : Leaves (internTerm (.ctor name ids)) middle.terms (fun _ _ => True)
          fun error _ => functions.Raises error := trivial
      exact (BindM.ofTermM_safe interned).mono (fun _ _ same' => ⟨same'.trans same, values⟩)
        fun _ _ failed => .inl failed
  | .call function args, _, bindings, represents, callable, knows => by
      obtain ⟨terms, rfl, all⟩ := represents
      obtain ⟨registered, callable⟩ := callable
      unfold eval
      apply (evalList_reads args all callable knows).bind
      rintro ids middle ⟨-, same, values⟩
      exact (BindM.ofTermM_safe (Registry.call_raises registered ids middle.terms)).mono
        (fun _ _ same' => ⟨same'.trans same, values⟩) fun _ _ failed => .inl failed

theorem evalList_reads : (plans : List PlanTerm) → {terms : List Term} → {bindings : Bindings} →
    RepresentsAll store names plans terms → CallableAll functions plans →
      bindings.substitution.Knows names known →
        Leaves (evalList functions plans) bindings
          (fun ids later => ids.length = plans.length ∧
            later.substitution = bindings.substitution ∧
              ∀ name ∈ Term.varsList terms, bindings.substitution.Values names name)
          fun error _ => error.StopsIf functions (¬ ∀ name ∈ Term.varsList terms, name ∈ known)
  | [], _, bindings, all, _, _ => by
      obtain rfl := all
      unfold evalList
      exact ⟨rfl, rfl, by simp [Term.varsList]⟩
  | plan :: plans, _, bindings, all, callable, knows => by
      obtain ⟨term, rest, rfl, first, others⟩ := all
      have here : (¬ ∀ name ∈ term.vars, name ∈ known) →
          ¬ ∀ name ∈ Term.varsList (term :: rest), name ∈ known :=
        mt fun inKnown name member => inKnown name (List.mem_append_left _ member)
      have there : (¬ ∀ name ∈ Term.varsList rest, name ∈ known) →
          ¬ ∀ name ∈ Term.varsList (term :: rest), name ∈ known :=
        mt fun inKnown name member => inKnown name (List.mem_append_right _ member)
      unfold evalList
      apply ((eval_reads plan first callable.1 knows).imp_stopped
        fun _ _ stops => stops.mono here).bind
      rintro id middle ⟨same, values⟩
      rw [← same] at knows values
      apply ((evalList_reads plans others callable.2 knows).imp_stopped
        fun _ _ stops => stops.mono there).bind
      rintro ids later ⟨length, same', values'⟩
      refine ⟨congrArg (· + 1) length, same'.trans same, fun name member => ?_⟩
      rw [← same]
      exact (List.mem_append.mp member).elim (values name) (values' name)

end

/-- A term whose variables are known is evaluated unless one of its calls fails. -/
theorem eval_safe (plan : PlanTerm) {term : Term} {bindings : Bindings}
    (represents : plan.Represents store names term) (callable : plan.Callable functions)
    (knows : bindings.substitution.Knows names known) (inKnown : ∀ name ∈ term.vars, name ∈ known) :
    Leaves (plan.eval functions) bindings
      (fun _ later => later.substitution = bindings.substitution)
      fun error _ => error.ComesFromCall functions := by
  apply (eval_reads plan represents callable knows).mono
  · exact fun _ _ done => done.1
  · exact fun _ _ stops => stops.comesFromCall (not_not.mpr inKnown)

theorem evalList_safe (plans : List PlanTerm) {terms : List Term} {bindings : Bindings}
    (all : RepresentsAll store names plans terms) (callable : CallableAll functions plans)
    (knows : bindings.substitution.Knows names known)
    (inKnown : ∀ name ∈ Term.varsList terms, name ∈ known) :
    Leaves (evalList functions plans) bindings
      (fun ids later => ids.length = plans.length ∧ later.substitution = bindings.substitution)
      fun error _ => error.ComesFromCall functions := by
  apply (evalList_reads plans all callable knows).mono
  · exact fun _ _ done => ⟨done.1, done.2.1⟩
  · exact fun _ _ stops => stops.comesFromCall (not_not.mpr inKnown)

/-! ## Matching -/

mutual

/-- A term is matched unless one of its calls fails or reads a variable too early. -/
theorem matchValue_reads (distinctNames : names.Nodup) :
    (plan : PlanTerm) → {term : Term} → {known : List String} → {bindings : Bindings} →
      (value : TermId) → plan.Represents store names term → plan.Callable functions →
        bindings.substitution.Knows names {name | name ∈ known} →
          Leaves (plan.matchValue functions value) bindings
            (bindings.Learns names {name | name ∈ known ++ term.vars})
            fun error _ => error.StopsIf functions (term.early known ≠ [])
  | .slot number, _, known, bindings, value, represents, _, knows => by
      obtain ⟨name, rfl, named⟩ := represents
      have learned : ∀ {later : Substitution}, later.Extends bindings.substitution →
          later.Knows names {name} →
            later.Knows names {other | other ∈ known ++ (Term.var name).vars} := by
        intro later extended knowsName
        refine ((knows.extend extended).union knowsName).mono fun other member => ?_
        exact (List.mem_append.mp member).imp_right List.mem_singleton.mp
      unfold matchValue
      apply (BindM.slotValue_safe knows named).bind
      rintro present later ⟨rfl, atSlot⟩
      cases present with
      | some present =>
          refine ⟨.refl _, fun _ => learned (.refl _) (.of_values distinctNames knows.length_eq ?_)⟩
          rintro other rfl
          exact ⟨number, present, named, atSlot⟩
      | none =>
          have extended : (later.substitution.bind number value).Extends later.substitution :=
            .bind (.refl _) atSlot value
          exact ⟨extended, fun _ => learned extended (knows.bind distinctNames named value)⟩
  | .const id, _, known, bindings, value, represents, _, knows => by
      obtain ⟨ground, rfl, -⟩ := represents
      unfold matchValue
      refine ⟨.refl _, fun _ => knows.mono fun name member => ?_⟩
      simpa [Value.vars_toTerm] using member
  | .ctor name args, _, known, bindings, value, represents, callable, knows => by
      obtain ⟨terms, rfl, all⟩ := represents
      unfold matchValue
      rw [leaves_bind, leaves_get]
      have failed : ∀ later, bindings.Learns names later false bindings :=
        fun _ => ⟨.refl _, by simp⟩
      split
      · next name' values _ =>
          split
          · next sameShape =>
              exact matchList_reads distinctNames args all callable sameShape.2.symm knows
          · exact failed _
      · exact failed _
  | .call function args, term, known, bindings, value, represents, callable, knows => by
      -- A call is evaluated before its value is compared, so that all of its variables are read.
      have isEarly : (¬ ∀ name ∈ term.vars, name ∈ known) → term.early known ≠ [] := by
        obtain ⟨terms, rfl, -⟩ := represents
        apply mt
        intro timely name member
        simpa using List.filter_eq_nil_iff.mp timely name member
      unfold matchValue
      apply ((eval_reads (.call function args) represents callable knows).imp_stopped
        fun _ _ stops => stops.mono isEarly).bind
      rintro id later ⟨same, values⟩
      have knowsVars : bindings.substitution.Knows names {name | name ∈ term.vars} :=
        .of_values distinctNames knows.length_eq values
      refine ⟨same ▸ .refl _, fun _ => same ▸ (knows.union knowsVars).mono fun name member => ?_⟩
      exact List.mem_append.mp member

theorem matchList_reads (distinctNames : names.Nodup) :
    (plans : List PlanTerm) → {terms : List Term} → {known : List String} → {bindings : Bindings} →
      {values : List TermId} → RepresentsAll store names plans terms →
        CallableAll functions plans → plans.length = values.length →
          bindings.substitution.Knows names {name | name ∈ known} →
            Leaves (matchList functions plans values) bindings
              (bindings.Learns names {name | name ∈ known ++ Term.varsList terms})
              fun error _ => error.StopsIf functions (Term.earlyList known terms ≠ [])
  | [], _, known, bindings, values, all, _, _, knows => by
      obtain rfl := all
      unfold matchList
      exact ⟨.refl _, fun _ => knows.mono fun name member => by simpa [Term.varsList] using member⟩
  | plan :: plans, _, known, bindings, values, all, callable, sameLength, knows => by
      obtain ⟨term, rest, rfl, first, others⟩ := all
      have here : term.early known ≠ [] → Term.earlyList known (term :: rest) ≠ [] :=
        fun early => List.append_ne_nil_of_left_ne_nil early _
      have there : Term.earlyList (known ++ term.vars) rest ≠ [] →
          Term.earlyList known (term :: rest) ≠ [] :=
        List.append_ne_nil_of_right_ne_nil _
      match values, sameLength with
      | value :: values, sameLength =>
          unfold matchList
          apply ((matchValue_reads distinctNames plan value first callable.1 knows).imp_stopped
            fun _ _ stops => stops.mono here).bind
          rintro success middle ⟨extended, learned⟩
          cases success with
          | false => exact ⟨extended, by simp⟩
          | true =>
              apply (matchList_reads distinctNames plans others callable.2 (Nat.succ.inj sameLength)
                (learned rfl)).mono
              · rintro success later ⟨extended', learnedRest⟩
                refine ⟨extended'.trans extended, fun isSuccess => ?_⟩
                simpa only [Term.varsList, List.append_assoc] using learnedRest isSuccess
              · exact fun error later stops => stops.mono there

end

/-- What is learned from a match that may start with all variables underneath calls. -/
theorem learns_of_reads {bindings later : Bindings} {success : Bool} {calls vars : List String}
    (knows : bindings.substitution.Knows names known)
    (learns : bindings.Learns names {name | name ∈ calls ++ vars} success later) :
    bindings.Learns names (known ∪ {name | name ∈ vars}) success later := by
  refine ⟨learns.1, fun isSuccess => (knows.extend learns.1).union ?_⟩
  exact (learns.2 isSuccess).mono fun name member => List.mem_append_right _ member

/-- A term is matched once the variables underneath its calls are known, unless a call fails. -/
theorem matchValue_safe (distinctNames : names.Nodup) (plan : PlanTerm) {term : Term}
    {bindings : Bindings} (value : TermId) (represents : plan.Represents store names term)
    (callable : plan.Callable functions) (knows : bindings.substitution.Knows names known)
    (inKnown : ∀ name ∈ term.callVars, name ∈ known) :
    Leaves (plan.matchValue functions value) bindings
      (bindings.Learns names (known ∪ {name | name ∈ term.vars}))
      fun error _ => error.ComesFromCall functions := by
  have matched := matchValue_reads distinctNames plan value represents callable (knows.mono inKnown)
  have timely := Term.early_eq_nil term fun name member => member
  apply matched.mono
  · exact fun _ _ learns => learns_of_reads knows learns
  · exact fun _ _ stops => stops.comesFromCall (not_not.mpr timely)

theorem matchList_safe (distinctNames : names.Nodup) (plans : List PlanTerm) {terms : List Term}
    {bindings : Bindings} {values : List TermId} (all : RepresentsAll store names plans terms)
    (callable : CallableAll functions plans) (sameLength : plans.length = values.length)
    (knows : bindings.substitution.Knows names known)
    (inKnown : ∀ name ∈ Term.callVarsList terms, name ∈ known) :
    Leaves (matchList functions plans values) bindings
      (bindings.Learns names (known ∪ {name | name ∈ Term.varsList terms}))
      fun error _ => error.ComesFromCall functions := by
  have matched := matchList_reads distinctNames plans all callable sameLength (knows.mono inKnown)
  have timely := Term.earlyList_eq_nil terms fun name member => member
  apply matched.mono
  · exact fun _ _ learns => learns_of_reads knows learns
  · exact fun _ _ stops => stops.comesFromCall (not_not.mpr timely)

/-! ## Matches that succeed -/

mutual

/-- A match that succeeds has read nothing early. -/
theorem matchValue_timely : (plan : PlanTerm) → {term : Term} → {known : List String} →
    {bindings : Bindings} → (value : TermId) → plan.Represents store names term →
      plan.Callable functions → bindings.substitution.KnowsOnly names known →
        Leaves (plan.matchValue functions value) bindings
          (fun success later => success = true → term.early known = [] ∧
            later.substitution.KnowsOnly names (known ++ term.vars))
          fun _ _ => True
  | .slot number, _, known, bindings, value, represents, _, knows => by
      obtain ⟨name, rfl, named⟩ := represents
      have slots : bindings.substitution.Knows names ∅ := ⟨knows.length_eq, by simp⟩
      unfold matchValue
      apply (BindM.slotValue_safe slots named).bind
      rintro present later ⟨rfl, -⟩
      cases present with
      | some present => exact fun _ => ⟨rfl, knows.mono (List.subset_append_left _ _)⟩
      | none => exact fun _ => ⟨rfl, knows.bind named value⟩
  | .const id, _, known, bindings, value, represents, _, knows => by
      obtain ⟨ground, rfl, -⟩ := represents
      unfold matchValue
      have noVars : ∀ name ∈ ground.toTerm.callVars, name ∈ known := by
        intro name member
        have occurs := Term.mem_vars_of_mem_callVars _ member
        simp [Value.vars_toTerm] at occurs
      exact fun _ => ⟨Term.early_eq_nil _ noVars, knows.mono (List.subset_append_left _ _)⟩
  | .ctor name args, _, known, bindings, value, represents, callable, knows => by
      obtain ⟨terms, rfl, all⟩ := represents
      unfold matchValue
      rw [leaves_bind, leaves_get]
      split
      · next name' values _ =>
          split
          · next sameShape => exact matchList_timely args all callable sameShape.2.symm knows
          · exact fun failed => nomatch failed
      · exact fun failed => nomatch failed
  | .call function args, _, known, bindings, value, represents, callable, knows => by
      have slots : bindings.substitution.Knows names ∅ := ⟨knows.length_eq, by simp⟩
      have evaluated := eval_reads (.call function args) represents callable slots
      obtain ⟨terms, rfl, -⟩ := represents
      unfold matchValue
      apply (evaluated.imp_stopped fun _ _ _ => trivial).bind
      rintro id later ⟨same, values⟩
      have inKnown : ∀ name ∈ Term.varsList terms, name ∈ known :=
        fun name member => knows.only name (values name member)
      refine fun _ => ⟨Term.early_eq_nil (.call function terms) inKnown, ?_⟩
      rw [same]
      exact knows.mono (List.subset_append_left _ _)

theorem matchList_timely : (plans : List PlanTerm) → {terms : List Term} → {known : List String} →
    {bindings : Bindings} → {values : List TermId} → RepresentsAll store names plans terms →
      CallableAll functions plans → plans.length = values.length →
        bindings.substitution.KnowsOnly names known →
          Leaves (matchList functions plans values) bindings
            (fun success later => success = true → Term.earlyList known terms = [] ∧
              later.substitution.KnowsOnly names (known ++ Term.varsList terms))
            fun _ _ => True
  | [], _, known, bindings, values, all, _, _, knows => by
      obtain rfl := all
      unfold matchList
      exact fun _ => ⟨rfl, knows.mono (List.subset_append_left _ _)⟩
  | plan :: plans, _, known, bindings, values, all, callable, sameLength, knows => by
      obtain ⟨term, rest, rfl, first, others⟩ := all
      match values, sameLength with
      | value :: values, sameLength =>
          unfold matchList
          apply (matchValue_timely plan value first callable.1 knows).bind
          intro success middle here
          cases success with
          | false => exact fun failed => nomatch failed
          | true =>
              obtain ⟨timely, knowsMiddle⟩ := here rfl
              apply (matchList_timely plans others callable.2 (Nat.succ.inj sameLength)
                knowsMiddle).imp_done
              intro success later there isSuccess
              obtain ⟨timelyRest, knowsLater⟩ := there isSuccess
              refine ⟨List.append_eq_nil_iff.mpr ⟨timely, timelyRest⟩, ?_⟩
              simpa only [Term.varsList, List.append_assoc] using knowsLater

end

end PlanTerm

end Datalog
