import Datalog.Proofs.Evaluation.Normalization
import Datalog.Proofs.Planning.Terms
import Datalog.Proofs.Program
import Datalog.Proofs.Semantics.Interning

/-!
# Folding constants

A rule's term is planned once and evaluated for many substitutions, and a fact's term is evaluated as it
is written.  Planning interns the constants and the constructors that are applied to constants only; since
interning them again gives the same numbers, a planned term comes to what the term comes to that has the
values of the variables written out in their places, whatever has been interned meanwhile.
-/

namespace Datalog

/-! ## Values in the places of variables -/

namespace Term

mutual

/-- A term with the values of its variables written out. -/
def instantiate (assignment : Assignment) : Term → Term
  | .var name => (assignment name).toTerm
  | .bool value => .bool value
  | .int value => .int value
  | .str value => .str value
  | .ctor name args => .ctor name (instantiateList assignment args)
  | .call function args => .call function (instantiateList assignment args)

def instantiateList (assignment : Assignment) : List Term → List Term
  | [] => []
  | term :: terms => instantiate assignment term :: instantiateList assignment terms

end

mutual

/-- The names of the functions that a term calls. -/
def functions : Term → List String
  | .var _ | .bool _ | .int _ | .str _ => []
  | .ctor _ args => functionsList args
  | .call function args => function :: functionsList args

def functionsList : List Term → List String
  | [] => []
  | term :: terms => functions term ++ functionsList terms

end

end Term

/-! ## Interning again -/

namespace TermStore

variable {store later : TermStore} {ground : GroundTerm} {id : TermId}

theorem intern_eq_self_iff : store.intern ground = (id, store) ↔
    ground ∈ store.terms.toList ∧ id = ⟨.ofNat (store.terms.toList.idxOf ground)⟩ := by
  obtain ⟨⟨stored⟩⟩ := store
  rw [intern_toArray]
  by_cases old : ground ∈ stored <;> simp [old, eq_comm]

theorem intern_intern (store : TermStore) (ground : GroundTerm) :
    (store.intern ground).2.intern ground = store.intern ground := by
  obtain ⟨⟨stored⟩⟩ := store
  rw [intern_toArray]
  by_cases old : ground ∈ stored
  · simp [intern_toArray, old]
  · simp [intern_toArray, old, List.idxOf_append_of_notMem, List.idxOf_of_notMem]

theorem intern_eq_mono (grown : later.Extends store) (held : store.intern ground = (id, store)) :
    later.intern ground = (id, later) := by
  obtain ⟨member, rfl⟩ := intern_eq_self_iff.mp held
  obtain ⟨added, shape⟩ := grown
  refine intern_eq_self_iff.mpr ⟨shape ▸ List.mem_append_left _ member, ?_⟩
  rw [← shape, List.idxOf_append_of_mem member]

theorem intern_eq_of_resolve (distinct : store.Distinct) (resolved : store.resolve id = some ground) :
    store.intern ground = (id, store) := by
  rw [resolve, ← Array.getElem?_toList] at resolved
  obtain ⟨inside, rfl⟩ := List.getElem?_eq_some_iff.mp resolved
  refine intern_eq_self_iff.mpr ⟨List.getElem_mem inside, ?_⟩
  rw [distinct.idxOf_getElem, UInt32.ofNat_toNat]

mutual

/-- A value is stored under a number: interning it again changes nothing. -/
def Holds (store : TermStore) (id : TermId) : Value → Prop
  | .bool value => store.intern (.bool value) = (id, store)
  | .int value => store.intern (.int value) = (id, store)
  | .str value => store.intern (.str value) = (id, store)
  | .ctor name values => ∃ ids, HoldsAll store ids values ∧
      store.intern (.ctor name ids) = (id, store)

def HoldsAll (store : TermStore) : List TermId → List Value → Prop
  | [], [] => True
  | id :: ids, value :: values => Holds store id value ∧ HoldsAll store ids values
  | [], _ :: _ | _ :: _, [] => False

end

mutual

theorem Holds.mono (grown : later.Extends store) : {id : TermId} → {value : Value} →
    store.Holds id value → later.Holds id value
  | _, .bool _, holds | _, .int _, holds | _, .str _, holds => intern_eq_mono grown holds
  | _, .ctor _ _, ⟨ids, all, holds⟩ => ⟨ids, all.mono grown, intern_eq_mono grown holds⟩

theorem HoldsAll.mono (grown : later.Extends store) : {ids : List TermId} → {values : List Value} →
    store.HoldsAll ids values → later.HoldsAll ids values
  | [], [], _ => trivial
  | _ :: _, _ :: _, ⟨first, others⟩ => ⟨first.mono grown, others.mono grown⟩
  | [], _ :: _, all | _ :: _, [], all => all.elim

end

mutual

/-- The values that numbers denote are stored under these numbers. -/
theorem Denotes.holds (distinct : store.Distinct) : {id : TermId} → {value : Value} →
    store.Denotes id value → store.Holds id value
  | _, .bool _, denotes | _, .int _, denotes | _, .str _, denotes =>
      intern_eq_of_resolve distinct denotes
  | _, .ctor _ _, ⟨ids, resolved, denotes⟩ =>
      ⟨ids, denotes.holdsAll distinct, intern_eq_of_resolve distinct resolved⟩

theorem DenotesAll.holdsAll (distinct : store.Distinct) : {ids : List TermId} →
    {values : List Value} → store.DenotesAll ids values → store.HoldsAll ids values
  | [], [], _ => trivial
  | _ :: _, _ :: _, ⟨first, others⟩ => ⟨first.holds distinct, others.holdsAll distinct⟩
  | [], _ :: _, denotes | _ :: _, [], denotes => denotes.elim

end

theorem internTerm_eq (held : store.intern ground = (id, store)) :
    internTerm ground store = .ok id store := by
  have result : internTerm ground store = .ok (store.intern ground).1 (store.intern ground).2 := rfl
  rw [result, held]

mutual

/-- A value that is stored comes to its number, and nothing is interned. -/
theorem Holds.normalize (functions : Registry) : {id : TermId} → {value : Value} →
    store.Holds id value → value.toTerm.normalize functions store = .ok id store
  | _, .bool _, holds | _, .int _, holds | _, .str _, holds => by
      unfold Value.toTerm Term.normalize
      exact internTerm_eq holds
  | id, .ctor name values, ⟨ids, all, holds⟩ => by
      unfold Value.toTerm Term.normalize
      rw [bind_eq_ok]
      exact ⟨ids, store, all.normalizeList functions, internTerm_eq holds⟩

theorem HoldsAll.normalizeList (functions : Registry) : {ids : List TermId} →
    {values : List Value} → store.HoldsAll ids values →
      Term.normalizeList functions (Value.toTermList values) store = .ok ids store
  | [], [], _ => rfl
  | _ :: _, _ :: _, ⟨first, others⟩ => by
      unfold Value.toTermList Term.normalizeList
      rw [bind_eq_ok]
      refine ⟨_, store, first.normalize functions, ?_⟩
      rw [bind_eq_ok]
      exact ⟨_, store, others.normalizeList functions, rfl⟩
  | [], _ :: _, all | _ :: _, [], all => all.elim

end

end TermStore

/-! ## Terms that are planned and evaluated -/

theorem BindM.ofTermM_bind {α β : Type} (first : TermM α) (next : α → TermM β) :
    BindM.ofTermM (first >>= next) =
      BindM.ofTermM first >>= fun value => BindM.ofTermM (next value) := by
  funext bindings
  simp only [BindM.ofTermM, bind, EStateM.bind]
  cases first bindings.terms <;> rfl

theorem BindM.leaves_ofTermM {α : Type} {computation : TermM α} (interns : Interns computation)
    {bindings : Bindings} :
    Leaves (BindM.ofTermM computation) bindings
      (fun _ later => later.terms.Extends bindings.terms ∧
        later.substitution = bindings.substitution)
      fun _ _ => True := by
  have grown := interns bindings.terms
  unfold Leaves at grown ⊢
  unfold BindM.ofTermM
  cases outcome : computation bindings.terms with
  | ok value terms =>
      rw [outcome] at grown
      exact ⟨grown, rfl⟩
  | error error terms => trivial

/-- The variables with some names have slots, and the values in these slots are stored. -/
def Bindings.Supplies (bindings : Bindings) (names vars : List String) (assignment : Assignment) :
    Prop :=
  ∀ (number : Nat) (name : String), names[number]? = some name → name ∈ vars →
    ∃ id, bindings.substitution.slots[number]? = some (some id) ∧
      bindings.terms.Holds id (assignment name)

theorem Bindings.Supplies.mono {bindings later : Bindings} {names others vars fewer : List String}
    {assignment : Assignment} (supplies : bindings.Supplies names vars assignment)
    (grown : later.terms.Extends bindings.terms)
    (same : later.substitution = bindings.substitution) (earlier : others <+: names)
    (inside : ∀ name ∈ fewer, name ∈ vars) : later.Supplies others fewer assignment := by
  intro number name named member
  obtain ⟨added, rfl⟩ := earlier
  have within := (List.getElem?_eq_some_iff.mp named).1
  obtain ⟨id, atSlot, holds⟩ := supplies number name
    (by rwa [List.getElem?_append_left within]) (inside name member)
  exact ⟨id, same ▸ atSlot, holds.mono grown⟩

namespace Planner

/-- A planned term comes to what the term comes to, from every store that has grown out of the one it
was planned with. -/
structure Folds (functions : Registry) (state : State) (plan : PlanTerm) (term : Term) : Prop where
  named : ∀ name ∈ term.vars, name ∈ state.names
  eval_eq : ∀ (bindings : Bindings) (assignment : Assignment),
    bindings.terms.Extends state.resources.terms →
      bindings.Supplies state.names term.vars assignment →
        plan.eval functions bindings =
          BindM.ofTermM ((term.instantiate assignment).normalize functions) bindings
  const_eq : ∀ id, plan.const? = some id → ∀ (store : TermStore) (assignment : Assignment),
    store.Extends state.resources.terms →
      (term.instantiate assignment).normalize functions store = .ok id store

structure FoldsAll (functions : Registry) (state : State) (plans : List PlanTerm)
    (terms : List Term) : Prop where
  named : ∀ name ∈ Term.varsList terms, name ∈ state.names
  eval_eq : ∀ (bindings : Bindings) (assignment : Assignment),
    bindings.terms.Extends state.resources.terms →
      bindings.Supplies state.names (Term.varsList terms) assignment →
        PlanTerm.evalList functions plans bindings =
          BindM.ofTermM (Term.normalizeList functions (Term.instantiateList assignment terms)) bindings
  const_eq : ∀ ids, PlanTerm.consts? plans = some ids →
    ∀ (store : TermStore) (assignment : Assignment), store.Extends state.resources.terms →
      Term.normalizeList functions (Term.instantiateList assignment terms) store = .ok ids store

/-- Names and terms were added. -/
structure State.Grows (later earlier : State) : Prop where
  names : earlier.names <+: later.names
  terms : later.resources.terms.Extends earlier.resources.terms

variable {functions : Registry} {state later : State}

theorem State.Grows.refl (state : State) : state.Grows state :=
  ⟨List.prefix_refl _, .refl _⟩

theorem State.Grows.trans {first second third : State} (right : third.Grows second)
    (left : second.Grows first) : third.Grows first :=
  ⟨left.names.trans right.names, right.terms.trans left.terms⟩

theorem Folds.mono {plan : PlanTerm} {term : Term} (folds : Folds functions state plan term)
    (grown : later.Grows state) : Folds functions later plan term where
  named name member := grown.names.subset (folds.named name member)
  eval_eq bindings assignment extended supplies :=
    folds.eval_eq bindings assignment (extended.trans grown.terms)
      (supplies.mono (.refl _) rfl grown.names fun _ => id)
  const_eq id isConst store assignment extended :=
    folds.const_eq id isConst store assignment (extended.trans grown.terms)

theorem exists_slotOf (name : String) (state : State) :
    ∃ number later, slotOf name state = .ok (number, later) ∧ later.Grows state ∧
      later.names[number]? = some name := by
  cases found : state.names.findIdx? (· = name) with
  | some number =>
      obtain ⟨inside, named, -⟩ := List.findIdx?_eq_some_iff_getElem.mp found
      refine ⟨number, state, ?_, .refl state, ?_⟩
      · simp only [slotOf, bind, StateT.bind, get, getThe, MonadStateOf.get, StateT.get, pure,
          Except.pure, Except.bind, found]
        rfl
      · rw [List.getElem?_eq_getElem inside]
        simpa using named
  | none =>
      refine ⟨state.names.length, { state with names := state.names ++ [name] }, ?_,
        ⟨⟨[name], rfl⟩, .refl _⟩, by simp⟩
      simp only [slotOf, bind, StateT.bind, get, getThe, MonadStateOf.get, StateT.get, pure,
        Except.pure, Except.bind, found]
      rfl

theorem folds_slot {number : Nat} {name : String} (named : state.names[number]? = some name) :
    Folds functions state (.slot number) (.var name) where
  named other member := by
    obtain rfl : other = name := by simpa [Term.vars] using member
    exact List.mem_of_getElem? named
  eval_eq bindings assignment _ supplies := by
    obtain ⟨id, atSlot, holds⟩ := supplies number name named (by simp [Term.vars])
    have evaluated : (PlanTerm.slot number).eval functions bindings = .ok id bindings := by
      unfold PlanTerm.eval
      rw [bind_eq_ok]
      refine ⟨some id, bindings, ?_, rfl⟩
      unfold BindM.slotValue
      rw [bind_eq_ok]
      exact ⟨bindings, bindings, rfl, by simp [atSlot]; rfl⟩
    rw [evaluated, BindM.ofTermM, Term.instantiate, holds.normalize]
  const_eq id isConst := by simp [PlanTerm.const?] at isConst

theorem folds_const {id : TermId} {term : Term} (named : ∀ name ∈ term.vars, name ∈ state.names)
    (settled : ∀ (store : TermStore) (assignment : Assignment),
      store.Extends state.resources.terms →
        (term.instantiate assignment).normalize functions store = .ok id store) :
    Folds functions state (.const id) term where
  named := named
  eval_eq bindings assignment extended _ := by
    have evaluated : (PlanTerm.const id).eval functions bindings = .ok id bindings := by
      unfold PlanTerm.eval
      rfl
    rw [evaluated, BindM.ofTermM, settled _ _ extended]
  const_eq id' isConst := by
    obtain rfl := Option.some.inj isConst
    exact settled

/-- Interning a constant that the term comes to. -/
theorem folds_constant (ground : GroundTerm) {term : Term} (state : State)
    (named : ∀ name ∈ term.vars, name ∈ state.names)
    (settled : ∀ (store : TermStore) (assignment : Assignment), store.Extends state.resources.terms →
      (term.instantiate assignment).normalize functions store = internTerm ground store) :
    ∃ plan later, constant ground state = .ok (plan, later) ∧ later.Grows state ∧
      Folds functions later plan term := by
  refine ⟨_, _, rfl, ⟨List.prefix_refl _, TermStore.extends_intern _ ground⟩, ?_⟩
  refine folds_const named fun store assignment extended => ?_
  rw [settled store assignment (extended.trans (TermStore.extends_intern _ ground))]
  exact TermStore.internTerm_eq
    (TermStore.intern_eq_mono extended (TermStore.intern_intern _ ground))

/-- What is done with the values of arguments is done with what the arguments come to. -/
theorem FoldsAll.eval_bind {α : Type} {plans : List PlanTerm} {terms : List Term}
    (folds : FoldsAll functions state plans terms) (step : List TermId → TermM α)
    {bindings : Bindings} {assignment : Assignment}
    (extended : bindings.terms.Extends state.resources.terms)
    (supplies : bindings.Supplies state.names (Term.varsList terms) assignment) :
    (PlanTerm.evalList functions plans >>= fun ids => BindM.ofTermM (step ids)) bindings =
      BindM.ofTermM (Term.normalizeList functions (Term.instantiateList assignment terms) >>= step)
        bindings := by
  rw [BindM.ofTermM_bind]
  simp only [bind, EStateM.bind, folds.eval_eq bindings assignment extended supplies]

/-- A constructor that is applied to constants comes to what interning it gives. -/
theorem FoldsAll.settled {plans : List PlanTerm} {terms : List Term}
    (folds : FoldsAll functions state plans terms) {ids : List TermId}
    (constants : PlanTerm.consts? plans = some ids) (name : String) (store : TermStore)
    (assignment : Assignment) (extended : store.Extends state.resources.terms) :
    ((Term.ctor name terms).instantiate assignment).normalize functions store =
      internTerm (.ctor name ids) store := by
  unfold Term.instantiate Term.normalize
  simp only [bind, EStateM.bind, folds.const_eq ids constants store assignment extended]

theorem foldsAll_cons {plan : PlanTerm} {plans : List PlanTerm} {term : Term} {terms : List Term}
    (first : Folds functions state plan term) (others : FoldsAll functions state plans terms) :
    FoldsAll functions state (plan :: plans) (term :: terms) where
  named := List.forall_mem_append.mpr ⟨first.named, others.named⟩
  eval_eq bindings assignment extended supplies := by
    have suppliesFirst : bindings.Supplies state.names term.vars assignment :=
      supplies.mono (.refl _) rfl (List.prefix_refl _) fun name member => by
        simp [Term.varsList, member]
    unfold PlanTerm.evalList Term.instantiateList Term.normalizeList
    rw [BindM.ofTermM_bind]
    refine bind_congr_of_leaves (first.eval_eq bindings assignment extended suppliesFirst)
      (BindM.leaves_ofTermM (Term.interns_normalize functions (term.instantiate assignment))) ?_
    rintro id later ⟨grown, same⟩
    rw [BindM.ofTermM_bind]
    have suppliesRest : later.Supplies state.names (Term.varsList terms) assignment :=
      supplies.mono grown same (List.prefix_refl _) fun name member => by
        simp [Term.varsList, member]
    simp only [bind, EStateM.bind,
      others.eval_eq later assignment (grown.trans extended) suppliesRest]
    rfl
  const_eq ids constants store assignment extended := by
    unfold PlanTerm.consts? at constants
    split at constants
    · next id rest isConst isConstRest =>
        obtain rfl := Option.some.inj constants
        unfold Term.instantiateList Term.normalizeList
        rw [bind_eq_ok]
        refine ⟨id, store, first.const_eq id isConst store assignment extended, ?_⟩
        rw [bind_eq_ok]
        exact ⟨rest, store, others.const_eq rest isConstRest store assignment extended, rfl⟩
    · cases constants

mutual

/-- A term whose functions are registered is planned, and the plan comes to what the term comes to. -/
theorem term_folds (context : Context) :
    (term : Term) → (∀ function ∈ term.functions, context.functions.contains function = true) →
      (state : State) → ∃ plan later, Planner.term context term state = .ok (plan, later) ∧
        later.Grows state ∧ Folds context.functions later plan term
  | .var name, _, state => by
      obtain ⟨number, later, slotEq, grown, named⟩ := exists_slotOf name state
      refine ⟨.slot number, later, ?_, grown, folds_slot named⟩
      unfold Planner.term
      simp only [bind, StateT.bind, slotEq, Except.bind]
      rfl
  | .bool value, _, state => by
      unfold Planner.term
      exact folds_constant (.bool value) state (by simp [Term.vars]) fun _ _ _ => by
        simp only [Term.instantiate, Term.normalize]
  | .int value, _, state => by
      unfold Planner.term
      exact folds_constant (.int value) state (by simp [Term.vars]) fun _ _ _ => by
        simp only [Term.instantiate, Term.normalize]
  | .str value, _, state => by
      unfold Planner.term
      exact folds_constant (.str value) state (by simp [Term.vars]) fun _ _ _ => by
        simp only [Term.instantiate, Term.normalize]
  | .ctor name args, registered, state => by
      obtain ⟨plans, middle, plansEq, grown, folds⟩ := termList_folds context args registered state
      cases constants : PlanTerm.consts? plans with
      | some ids =>
          -- All arguments are constants, and the term is interned while it is planned.
          have folded : ∃ plan later, constant (.ctor name ids) middle = .ok (plan, later) ∧
              later.Grows middle ∧ Folds context.functions later plan (.ctor name args) := by
            refine folds_constant _ middle ?_ (folds.settled constants name)
            simpa only [Term.vars] using folds.named
          obtain ⟨plan, later, planEq, grown', folds'⟩ := folded
          refine ⟨plan, later, ?_, grown'.trans grown, folds'⟩
          simp only [Planner.term, bind, StateT.bind, plansEq, Except.bind, constants]
          exact planEq
      | none =>
          refine ⟨.ctor name plans, middle, ?_, grown, ⟨folds.named, ?_, ?_⟩⟩
          · simp only [Planner.term, bind, StateT.bind, plansEq, Except.bind, constants]
            rfl
          · intro bindings assignment extended supplies
            unfold PlanTerm.eval Term.instantiate Term.normalize
            exact folds.eval_bind (fun ids => internTerm (.ctor name ids)) extended supplies
          · intro id isConst
            simp [PlanTerm.const?] at isConst
  | .call function args, registered, state => by
      obtain ⟨isRegistered, registered⟩ := List.forall_mem_cons.mp registered
      obtain ⟨plans, later, plansEq, grown, folds⟩ := termList_folds context args registered state
      refine ⟨.call function plans, later, ?_, grown, ⟨folds.named, ?_, ?_⟩⟩
      · simp only [Planner.term, isRegistered, if_true, bind, StateT.bind, plansEq, Except.bind]
        rfl
      · intro bindings assignment extended supplies
        unfold PlanTerm.eval Term.instantiate Term.normalize
        exact folds.eval_bind (context.functions.call function) extended supplies
      · intro id isConst
        simp [PlanTerm.const?] at isConst

theorem termList_folds (context : Context) :
    (terms : List Term) →
      (∀ function ∈ Term.functionsList terms, context.functions.contains function = true) →
        (state : State) → ∃ plans later, Planner.termList context terms state = .ok (plans, later) ∧
          later.Grows state ∧ FoldsAll context.functions later plans terms
  | [], _, state => by
      refine ⟨[], state, ?_, .refl state, by simp [Term.varsList], ?_, ?_⟩
      · unfold Planner.termList
        rfl
      · intro bindings assignment _ _
        unfold PlanTerm.evalList Term.instantiateList Term.normalizeList
        rfl
      · intro ids constants store assignment _
        obtain rfl := Option.some.inj constants
        unfold Term.instantiateList Term.normalizeList
        rfl
  | term :: terms, registered, state => by
      obtain ⟨registeredFirst, registeredRest⟩ := List.forall_mem_append.mp registered
      obtain ⟨plan, middle, planEq, grown, first⟩ := term_folds context term registeredFirst state
      obtain ⟨plans, later, plansEq, grown', others⟩ :=
        termList_folds context terms registeredRest middle
      refine ⟨plan :: plans, later, ?_, grown'.trans grown, foldsAll_cons (first.mono grown') others⟩
      simp only [Planner.termList, bind, StateT.bind, planEq, plansEq, Except.bind]
      rfl

end

end Planner

/-! ## Evaluating and normalizing -/

/-- The variables have slots in which numbers of their values stand. -/
def Bindings.Assigns (bindings : Bindings) (names vars : List String) (assignment : Assignment) :
    Prop :=
  ∀ (number : Nat) (name : String), names[number]? = some name → name ∈ vars →
    ∃ id, bindings.substitution.slots[number]? = some (some id) ∧
      bindings.terms.Denotes id (assignment name)

theorem Bindings.Assigns.supplies {bindings : Bindings} {names vars : List String}
    {assignment : Assignment} (assigns : bindings.Assigns names vars assignment)
    (distinct : bindings.terms.Distinct) : bindings.Supplies names vars assignment := by
  intro number name named member
  obtain ⟨id, atSlot, denotes⟩ := assigns number name named member
  exact ⟨id, atSlot, denotes.holds distinct⟩

theorem answerOf_ofTermM {α : Type} (computation : TermM α) (bindings : Bindings) :
    answerOf (BindM.ofTermM computation bindings) =
        (answerOf (computation bindings.terms)).mapError .failed ∧
      (leftBy (BindM.ofTermM computation bindings)).terms = leftBy (computation bindings.terms) := by
  unfold BindM.ofTermM
  cases computation bindings.terms <;> exact ⟨rfl, rfl⟩

namespace PlanTerm

/-- What evaluating a planned term comes to is what normalizing the term comes to that has the values of
the variables written out, whatever was interned since it was planned. -/
structure ComesTo (functions : Registry) (planned : Planner.State) (plan : PlanTerm) (term : Term) :
    Prop where
  named : ∀ name ∈ term.vars, name ∈ planned.names
  /-- From the same store both give the same number or the same error, and intern the same terms. -/
  together : ∀ (bindings : Bindings) (assignment : Assignment),
    bindings.terms.Extends planned.resources.terms → bindings.terms.Distinct →
      bindings.Assigns planned.names term.vars assignment →
        plan.eval functions bindings =
          BindM.ofTermM ((term.instantiate assignment).normalize functions) bindings
  /-- So they do at different moments, if functions look at the structure of arguments only; the stores
  that they leave have grown into one store since. -/
  apart : ∀ behaviour, functions.Follows behaviour →
    ∀ (bindings : Bindings) (assignment : Assignment) (store joint : TermStore),
      bindings.terms.Extends planned.resources.terms → bindings.terms.Distinct →
        bindings.Assigns planned.names term.vars assignment → store.Distinct →
          joint.Extends (leftBy (plan.eval functions bindings)).terms →
            joint.Extends (leftBy ((term.instantiate assignment).normalize functions store)) →
              joint.Distinct → joint.HasRoom →
                answerOf (plan.eval functions bindings) =
                  (answerOf ((term.instantiate assignment).normalize functions store)).mapError
                    .failed

end PlanTerm

theorem Planner.Folds.comesTo {functions : Registry} {planned : Planner.State} {plan : PlanTerm}
    {term : Term} (folds : Folds functions planned plan term) :
    plan.ComesTo functions planned term := by
  have together : ∀ (bindings : Bindings) (assignment : Assignment),
      bindings.terms.Extends planned.resources.terms → bindings.terms.Distinct →
        bindings.Assigns planned.names term.vars assignment →
          plan.eval functions bindings =
            BindM.ofTermM ((term.instantiate assignment).normalize functions) bindings :=
    fun bindings assignment extended distinct assigns =>
      folds.eval_eq bindings assignment extended (assigns.supplies distinct)
  refine ⟨folds.named, together, ?_⟩
  intro behaviour follows bindings assignment store joint extended distinct assigns distinct' grown
    grown' distinctJoint room
  rw [together bindings assignment extended distinct assigns] at grown ⊢
  obtain ⟨answerEq, leftEq⟩ :=
    answerOf_ofTermM ((term.instantiate assignment).normalize functions) bindings
  rw [leftEq] at grown
  rw [answerEq, Term.normalize_agree follows _ distinct distinct' distinctJoint room grown grown']

/-- A term whose functions are registered can be planned, and the plan comes to what the term comes to
that has the values of its variables written out. -/
theorem planned_comesTo (context : Planner.Context) (term : Term)
    (registered : ∀ function ∈ term.functions, context.functions.contains function = true)
    (state : Planner.State) :
    ∃ plan planned, Planner.term context term state = .ok (plan, planned) ∧
      plan.ComesTo context.functions planned term := by
  obtain ⟨plan, planned, planEq, -, folds⟩ := Planner.term_folds context term registered state
  exact ⟨plan, planned, planEq, folds.comesTo⟩

namespace Sample

/-- What the functions of the sample make of values. -/
def behaviour : Behaviour := fun name values =>
  if name = "wrap" then .ok (.ctor "wrap" values) else .error (.unknownFunction name)

theorem follows : functions.Follows behaviour := by
  intro name store ids values distinct denotes
  by_cases isWrap : "wrap" = name
  · subst isWrap
    exact fun room => ⟨distinct.intern _, _, by simp [behaviour],
      TermStore.denotes_intern_ctor denotes room⟩
  · have unknown : functions.find? name = none := by simp [functions, Registry.find?, isWrap]
    unfold Registry.call
    rw [unknown]
    exact .throw ⟨distinct, by simp [behaviour, Ne.symm isWrap]⟩

/-- A pair whose first part is computed and whose second part is folded. -/
def pair : Term :=
  .ctor "pair" [.call "wrap" [.var "X", .int 1], .ctor "leaf" [.int 1, .str "a"]]

def pairContext : Planner.Context where
  functions := functions
  site := .inQuery default
  separateDeltas := false

def pairPlan : PlanTerm :=
  .ctor "pair" [.call "wrap" [.slot 0, .const ⟨0⟩], .const ⟨2⟩]

def pairPlanned : Planner.State where
  resources :=
    { terms := { terms := #[.int 1, .str "a", .ctor "leaf" [⟨0⟩, ⟨1⟩]] }, main := {}, delta := {} }
  names := ["X"]

/-- Another constant has been interned since, and is the value of the variable. -/
def pairBindings : Bindings where
  terms := { terms := #[.int 1, .str "a", .ctor "leaf" [⟨0⟩, ⟨1⟩], .bool true] }
  substitution := { slots := [some ⟨3⟩], trail := [0] }

end Sample

theorem planned_comesTo_sample :
    Planner.term Sample.pairContext Sample.pair { resources := { main := {}, delta := {} } } =
        .ok (Sample.pairPlan, Sample.pairPlanned) ∧
      Sample.functions.Follows Sample.behaviour ∧
        Sample.pairPlan.ComesTo Sample.functions Sample.pairPlanned Sample.pair ∧
          Sample.pairPlan.eval Sample.functions Sample.pairBindings =
            BindM.ofTermM ((Sample.pair.instantiate fun _ => .bool true).normalize Sample.functions)
              Sample.pairBindings := by
  obtain ⟨plan, planned, planEq, comesTo⟩ :=
    planned_comesTo Sample.pairContext Sample.pair (by decide)
      { resources := { main := {}, delta := {} } }
  have planEq' : Planner.term Sample.pairContext Sample.pair
      { resources := { main := {}, delta := {} } } = .ok (Sample.pairPlan, Sample.pairPlanned) := by
    with_unfolding_all rfl
  obtain ⟨rfl, rfl⟩ := Prod.mk.inj (Except.ok.inj (planEq.symm.trans planEq'))
  have assigns : Sample.pairBindings.Assigns Sample.pairPlanned.names Sample.pair.vars
      fun _ => .bool true := by
    rintro (_ | number) name named member
    · exact ⟨⟨3⟩, rfl, rfl⟩
    · simp [Sample.pairPlanned] at named
  have extended : Sample.pairBindings.terms.Extends Sample.pairPlanned.resources.terms :=
    ⟨[.bool true], rfl⟩
  have distinct : Sample.pairBindings.terms.Distinct := by
    simp [TermStore.Distinct, Sample.pairBindings]
  exact ⟨planEq, Sample.follows, comesTo, comesTo.together _ _ extended distinct assigns⟩

end Datalog
