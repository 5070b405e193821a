import Datalog.Proofs.Evaluation.Frame
import Datalog.Proofs.Store.StorePlan

/-!
# Planning terms

Planning only adds: names of variables, interned constants and requested indices.  A planned term
stands for the term that it was made from and calls registered functions only.
-/

namespace Datalog

/-! ## Computations that may fail -/

/-- What a computation returns and leaves behind, unless it fails. -/
def Produces {ε σ α : Type} (computation : StateT σ (Except ε) α) (start : σ)
    (done : α → σ → Prop) : Prop :=
  ∀ value state, computation start = .ok (value, state) → done value state

namespace Produces

variable {ε σ α β : Type} {start : σ} {done : β → σ → Prop} {middle : α → σ → Prop}

theorem pure {value : α} (isDone : middle value start) :
    Produces (pure value : StateT σ (Except ε) α) start middle := by
  intro value' state outcome
  cases outcome
  exact isDone

theorem throw_bind {error : ε} {next : α → StateT σ (Except ε) β} :
    Produces ((throw error : StateT σ (Except ε) α) >>= next) start done := by
  intro value state outcome
  cases outcome

theorem throw {error : ε} : Produces (throw error : StateT σ (Except ε) α) start middle := by
  intro value state outcome
  cases outcome

theorem bind {first : StateT σ (Except ε) α} {next : α → StateT σ (Except ε) β}
    (produces : Produces first start middle)
    (nextProduces : ∀ value state, middle value state → Produces (next value) state done) :
    Produces (first >>= next) start done := by
  intro value state outcome
  simp only [Bind.bind, StateT.bind, Except.bind] at outcome
  split at outcome
  · cases outcome
  · next result ran => exact nextProduces _ _ (produces _ _ ran) value state outcome

theorem get_bind {next : σ → StateT σ (Except ε) β} (produces : Produces (next start) start done) :
    Produces (get >>= next) start done :=
  produces

theorem set_bind {state : σ} {next : PUnit → StateT σ (Except ε) β}
    (produces : Produces (next ⟨⟩) state done) :
    Produces (set state >>= next) start done :=
  produces

theorem modifyGet {change : σ → α × σ} (isDone : middle (change start).1 (change start).2) :
    Produces (modifyGet change : StateT σ (Except ε) α) start middle := by
  intro value state outcome
  have same : change start = (value, state) := Except.ok.inj outcome
  rwa [same] at isDone

theorem lift_bind {first : Except ε α} {next : α → StateT σ (Except ε) β}
    (produces : ∀ value, first = .ok value → Produces (next value) start done) :
    Produces (liftM first >>= next) start done := by
  intro value state outcome
  cases first with
  | error error => cases outcome
  | ok result => exact produces result rfl value state outcome

theorem mono {computation : StateT σ (Except ε) α} {done : α → σ → Prop}
    (produces : Produces computation start middle)
    (weaker : ∀ value state, middle value state → done value state) :
    Produces computation start done :=
  fun value state outcome => weaker value state (produces value state outcome)

end Produces

/-! ## Registered functions and folded constants -/

namespace PlanTerm

mutual

/-- A planned term calls registered functions only. -/
def Callable (functions : Registry) : PlanTerm → Prop
  | .slot _ | .const _ => True
  | .ctor _ args => CallableAll functions args
  | .call function args => functions.contains function = true ∧ CallableAll functions args

def CallableAll (functions : Registry) : List PlanTerm → Prop
  | [] => True
  | plan :: plans => Callable functions plan ∧ CallableAll functions plans

end

mutual

/-- No constructor of a planned term is applied to constants only. -/
def Folded : PlanTerm → Prop
  | .slot _ | .const _ => True
  | .ctor _ args => consts? args = none ∧ FoldedAll args
  | .call _ args => FoldedAll args

def FoldedAll : List PlanTerm → Prop
  | [] => True
  | plan :: plans => Folded plan ∧ FoldedAll plans

end

end PlanTerm

namespace Planner

/-! ## What planning keeps -/

/-- Terms are stored once, and patterns have as many columns as their relations. -/
structure Resources.Valid (resources : Resources) : Prop where
  distinct : resources.terms.Distinct
  main : resources.main.Valid
  delta : resources.delta.Valid

/-- Terms were interned and indices were asked for. -/
structure Resources.Extends (later earlier : Resources) : Prop where
  terms : later.terms.Extends earlier.terms
  main : later.main.Extends earlier.main
  delta : later.delta.Extends earlier.delta

theorem Resources.Extends.refl (resources : Resources) : resources.Extends resources :=
  ⟨.refl _, .refl _, .refl _⟩

theorem Resources.Extends.trans {first second third : Resources} (right : third.Extends second)
    (left : second.Extends first) : third.Extends first :=
  ⟨right.terms.trans left.terms, right.main.trans left.main, right.delta.trans left.delta⟩

/-- What plans refer to while they are made. -/
def Resources.referents (separateDeltas : Bool) (resources : Resources) : Referents where
  terms := resources.terms
  provides delta :=
    if delta && separateDeltas then resources.delta.Requests else resources.main.Requests

theorem Resources.Extends.keeps {later earlier : Resources} (extended : later.Extends earlier)
    (separateDeltas : Bool) :
    (later.referents separateDeltas).Keeps (earlier.referents separateDeltas) := by
  refine ⟨extended.terms, fun delta symbol number pattern requests => ?_⟩
  simp only [referents] at requests ⊢
  split at requests
  · next separate =>
      rw [if_pos separate]
      exact extended.delta.requests symbol number pattern requests
  · next shared =>
      rw [if_neg shared]
      exact extended.main.requests symbol number pattern requests

/-- Planning has gone on: the resources are valid, and names and resources were added. -/
structure State.Continues (later earlier : State) : Prop where
  names_nodup : later.names.Nodup
  valid : later.resources.Valid
  names : earlier.names <+: later.names
  extended : later.resources.Extends earlier.resources

theorem State.Continues.trans {first second third : State} (right : third.Continues second)
    (left : second.Continues first) : third.Continues first :=
  ⟨right.names_nodup, right.valid, left.names.trans right.names,
    right.extended.trans left.extended⟩

/-- A state that may be continued. -/
abbrev State.Valid (state : State) : Prop :=
  state.Continues state

theorem State.Continues.later_valid {first second : State} (continues : second.Continues first) :
    second.Valid :=
  ⟨continues.names_nodup, continues.valid, List.prefix_refl _, .refl _⟩

/-! ## Terms -/

/-- A planned term stands for a term. -/
structure Planned (functions : Registry) (state : State) (plan : PlanTerm) (term : Term) : Prop where
  represents : plan.Represents state.resources.terms state.names term
  callable : plan.Callable functions
  folded : plan.Folded

structure PlannedAll (functions : Registry) (state : State) (plans : List PlanTerm)
    (terms : List Term) : Prop where
  represents : PlanTerm.RepresentsAll state.resources.terms state.names plans terms
  callable : PlanTerm.CallableAll functions plans
  folded : PlanTerm.FoldedAll plans

variable {state later : State}

theorem Planned.mono {functions : Registry} {plan : PlanTerm} {term : Term}
    (planned : Planned functions state plan term) (continues : later.Continues state) :
    Planned functions later plan term :=
  { planned with represents := planned.represents.mono continues.extended.terms continues.names }

theorem PlannedAll.mono {functions : Registry} {plans : List PlanTerm} {terms : List Term}
    (planned : PlannedAll functions state plans terms) (continues : later.Continues state) :
    PlannedAll functions later plans terms :=
  { planned with represents := planned.represents.mono continues.extended.terms continues.names }

theorem slotOf_produces (valid : state.Valid) (name : String) :
    Produces (slotOf name) state fun number later =>
      later.Continues state ∧ later.names[number]? = some name := by
  refine .get_bind ?_
  split
  · next number found =>
      obtain ⟨inside, named, -⟩ := List.findIdx?_eq_some_iff_getElem.mp found
      refine .pure ⟨valid, ?_⟩
      rw [List.getElem?_eq_getElem inside]
      simpa using named
  · next missing =>
      have absent : name ∉ state.names := by
        intro member
        have := List.findIdx?_eq_none_iff.mp missing name member
        simp at this
      refine .set_bind (.pure ⟨⟨?_, valid.valid, ⟨[name], rfl⟩, .refl _⟩, by simp⟩)
      rw [List.nodup_append]
      refine ⟨valid.names_nodup, by simp, ?_⟩
      rintro other member _ here rfl
      exact absent (by simpa [List.mem_singleton.mp here] using member)

/-- The number of a constant stands for its value if it does once the constant is interned. -/
theorem constant_produces (valid : state.Valid) (functions : Registry) {ground : GroundTerm}
    (value : Value)
    (denotes : (state.resources.terms.intern ground).2.HasRoom →
      (state.resources.terms.intern ground).2.Denotes
        (state.resources.terms.intern ground).1 value) :
    Produces (constant ground) state fun plan later =>
      later.Continues state ∧ Planned functions later plan value.toTerm := by
  refine .modifyGet ⟨⟨valid.names_nodup, ⟨?_, valid.valid.main, valid.valid.delta⟩,
    List.prefix_refl _, ⟨?_, .refl _, .refl _⟩⟩, ⟨value, rfl, denotes⟩, trivial, trivial⟩
  · exact valid.valid.distinct.intern ground
  · exact TermStore.extends_intern _ ground

theorem consts?_eq_some {plans : List PlanTerm} {ids : List TermId} {terms : List Term}
    {store : TermStore} {names : List String} (constants : PlanTerm.consts? plans = some ids)
    (represents : PlanTerm.RepresentsAll store names plans terms) :
    ∃ values, terms = Value.toTermList values ∧ (store.HasRoom → store.DenotesAll ids values) := by
  induction plans generalizing ids terms with
  | nil =>
      obtain rfl : ids = [] := by simpa [PlanTerm.consts?, eq_comm] using constants
      exact ⟨[], represents, fun _ => trivial⟩
  | cons plan plans ih =>
      obtain ⟨term, rest, rfl, first, others⟩ := represents
      unfold PlanTerm.consts? at constants
      split at constants
      · next id restIds isConst constantRest =>
          cases constants
          cases plan with
          | const id' =>
              obtain rfl : id' = id := by simpa [PlanTerm.const?] using isConst
              obtain ⟨value, rfl, denotes⟩ := first
              obtain ⟨values, rfl, denotesRest⟩ := ih constantRest others
              exact ⟨value :: values, rfl, fun room => ⟨denotes room, denotesRest room⟩⟩
          | slot | ctor | call => simp [PlanTerm.const?] at isConst
      · simp at constants

mutual

theorem term_produces (context : Context) :
    (term : Term) → {state : State} → state.Valid →
      Produces (Planner.term context term) state fun plan later =>
        later.Continues state ∧ Planned context.functions later plan term
  | .var name, state, valid => by
      unfold Planner.term
      refine .bind (slotOf_produces valid name) ?_
      rintro number later ⟨continues, named⟩
      exact .pure ⟨continues, ⟨name, rfl, named⟩, trivial, trivial⟩
  | .bool value, state, valid => by
      unfold Planner.term
      exact constant_produces valid _ (.bool value) fun room => TermStore.resolve_intern room
  | .int value, state, valid => by
      unfold Planner.term
      exact constant_produces valid _ (.int value) fun room => TermStore.resolve_intern room
  | .str value, state, valid => by
      unfold Planner.term
      exact constant_produces valid _ (.str value) fun room => TermStore.resolve_intern room
  | .ctor name args, state, valid => by
      unfold Planner.term
      refine .bind (termList_produces context args valid) ?_
      rintro plans middle ⟨continues, planned⟩
      split
      · next ids constants =>
          obtain ⟨values, rfl, denotes⟩ := consts?_eq_some constants planned.represents
          refine (constant_produces continues.later_valid context.functions (.ctor name values)
            fun room => ?_).mono fun plan later done => ⟨done.1.trans continues, done.2⟩
          exact TermStore.denotes_intern_ctor
            (denotes ((TermStore.extends_intern _ _).hasRoom room)) room
      · next notAll =>
          exact .pure ⟨continues, ⟨args, rfl, planned.represents⟩, planned.callable, notAll,
            planned.folded⟩
  | .call function args, state, valid => by
      unfold Planner.term
      split
      · next registered =>
          refine .bind (termList_produces context args valid) ?_
          rintro plans later ⟨continues, planned⟩
          exact .pure ⟨continues, ⟨args, rfl, planned.represents⟩, ⟨registered, planned.callable⟩,
            planned.folded⟩
      · exact .throw

theorem termList_produces (context : Context) :
    (terms : List Term) → {state : State} → state.Valid →
      Produces (Planner.termList context terms) state fun plans later =>
        later.Continues state ∧ PlannedAll context.functions later plans terms
  | [], state, valid => by
      unfold Planner.termList
      exact .pure ⟨valid, rfl, trivial, trivial⟩
  | term :: terms, state, valid => by
      unfold Planner.termList
      refine .bind (term_produces context term valid) ?_
      rintro plan middle ⟨continues, planned⟩
      refine .bind (termList_produces context terms continues.later_valid) ?_
      rintro plans later ⟨continues', plannedRest⟩
      have first := planned.mono continues'
      exact .pure ⟨continues'.trans continues,
        ⟨term, terms, rfl, first.represents, plannedRest.represents⟩,
        ⟨first.callable, plannedRest.callable⟩, first.folded, plannedRest.folded⟩

end

end Planner

end Datalog
