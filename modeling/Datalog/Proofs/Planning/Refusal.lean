import Datalog.Proofs.Planning.Bodies
import Datalog.Proofs.Program

/-!
# Failures of planning

Planning a body fails for several reasons.  If its literals use relations as they are declared, then it
is refused the use of a relation only where a marked atom is looked up in the deltas of a relation that
no rule defines.
-/

namespace Datalog

/-! ## Computations that fail -/

/-- What is known about the failure of a computation. -/
def Refuses {ε σ α : Type} (computation : StateT σ (Except ε) α) (start : σ)
    (allowed : ε → Prop) : Prop :=
  ∀ error, computation start = .error error → allowed error

namespace Refuses

variable {ε σ α β : Type} {start : σ} {allowed : ε → Prop} {middle : α → σ → Prop}

theorem pure {value : α} :
    Refuses (pure value : StateT σ (Except ε) α) start allowed := by
  intro error outcome
  cases outcome

theorem throw {error : ε} (isAllowed : allowed error) :
    Refuses (throw error : StateT σ (Except ε) α) start allowed := by
  intro error' outcome
  cases outcome
  exact isAllowed

theorem throw_bind {error : ε} {next : α → StateT σ (Except ε) β} (isAllowed : allowed error) :
    Refuses ((MonadExcept.throw error : StateT σ (Except ε) α) >>= next) start allowed := by
  intro error' outcome
  cases outcome
  exact isAllowed

theorem bind {first : StateT σ (Except ε) α} {next : α → StateT σ (Except ε) β}
    (refuses : Refuses first start allowed) (produces : Produces first start middle)
    (nextRefuses : ∀ value state, middle value state → Refuses (next value) state allowed) :
    Refuses (first >>= next) start allowed := by
  intro error outcome
  simp only [Bind.bind, StateT.bind, Except.bind] at outcome
  split at outcome
  · next failed =>
      cases outcome
      exact refuses _ failed
  · next result ran => exact nextRefuses _ _ (produces _ _ ran) error outcome

theorem seq {first : StateT σ (Except ε) α} {next : α → StateT σ (Except ε) β}
    (refuses : Refuses first start allowed)
    (nextRefuses : ∀ value state, Refuses (next value) state allowed) :
    Refuses (first >>= next) start allowed := by
  have anything : Produces first start fun _ _ => True := fun _ _ _ => trivial
  exact refuses.bind anything fun value state _ => nextRefuses value state

theorem get_bind {next : σ → StateT σ (Except ε) β}
    (refuses : Refuses (next start) start allowed) :
    Refuses (get >>= next) start allowed :=
  refuses

theorem set_bind {state : σ} {next : PUnit → StateT σ (Except ε) β}
    (refuses : Refuses (next ⟨⟩) state allowed) :
    Refuses (set state >>= next) start allowed :=
  refuses

theorem lift_bind {first : Except ε α} {next : α → StateT σ (Except ε) β}
    (failed : ∀ error, first = .error error → allowed error)
    (refuses : ∀ value, first = .ok value → Refuses (next value) start allowed) :
    Refuses (liftM first >>= next) start allowed := by
  intro error outcome
  cases first with
  | error failure =>
      cases outcome
      exact failed _ rfl
  | ok result => exact refuses result rfl error outcome

theorem mono {computation : StateT σ (Except ε) α} {weaker : ε → Prop}
    (refuses : Refuses computation start allowed) (weakens : ∀ error, allowed error → weaker error) :
    Refuses computation start weaker :=
  fun error outcome => weakens error (refuses error outcome)

end Refuses

/-- Whether a failure is about the use of a relation. -/
def SetupError.isAboutUse : SetupError → Bool
  | .unknownRelation _ | .arityMismatch .. => true
  | _ => false

namespace Program

variable {program : Program} {body : List BodyLiteral}

/-- The literals of a body use relations as they are declared. -/
def UsesAll (program : Program) (body : List BodyLiteral) : Prop :=
  ∀ atom delta, { literal := .predicate atom, delta } ∈ body →
    Uses program.relations atom.symbol atom.args

/-- A marked atom of a body reads the delta of a relation that no rule defines. -/
def MissesDelta (program : Program) (body : List BodyLiteral) (error : SetupError) : Prop :=
  ∃ atom, { literal := .predicate atom, delta := true } ∈ body ∧ atom.symbol ∉ program.ruleSymbols ∧
    error = .unknownRelation atom.symbol.name

theorem MissesDelta.mono {error : SetupError} (misses : program.MissesDelta body error)
    {more : List BodyLiteral} (included : ∀ literal ∈ body, literal ∈ more) :
    program.MissesDelta more error := by
  obtain ⟨atom, inBody, missing⟩ := misses
  exact ⟨atom, included _ inBody, missing⟩

end Program

namespace StorePlan

variable {plan : StorePlan} {symbol : RelationSymbol} {pattern : Pattern}

theorem exists_request_iff :
    (∃ number later, plan.request symbol pattern = .ok (number, later)) ↔
      (plan.patterns? symbol).isSome = true ∧ pattern.length = symbol.arity := by
  unfold request patterns?
  cases plan.patterns.find? (·.1 = symbol) with
  | none => simp
  | some entry =>
      by_cases length : pattern.length = symbol.arity
      · simp only [length, ne_eq, not_true_eq_false, if_false]
        split <;> simp
      · simp [length]

theorem request_eq_error {error : SetupError} (length : pattern.length = symbol.arity)
    (refused : plan.request symbol pattern = .error error) :
    (plan.patterns? symbol).isSome = false ∧ error = .unknownRelation symbol.name := by
  unfold request at refused
  unfold patterns?
  cases found : plan.patterns.find? (·.1 = symbol) with
  | none =>
      rw [found] at refused
      cases refused
      simp
  | some entry =>
      rw [found] at refused
      simp only [length, ne_eq, not_true_eq_false, if_false] at refused
      split at refused <;> cases refused

theorem isSome_patterns?_ofSymbols {symbols : List RelationSymbol} :
    ((ofSymbols symbols).patterns? symbol).isSome = true ↔ symbol ∈ symbols := by
  rw [patterns?_ofSymbols]
  split <;> simp_all

end StorePlan

namespace Planner

variable {program : Program} {resources later : Resources} {context : Context}

/-- Resources that are ready to plan a program: the main store is planned for the declared relations,
and the stores of deltas for the relations that rules define. -/
structure Resources.Ready (program : Program) (resources : Resources) : Prop where
  valid : resources.Valid
  main : resources.main.Extends (.ofSymbols program.relations)
  delta : resources.delta.Extends (.ofSymbols program.ruleSymbols)

theorem Resources.Ready.mono (ready : resources.Ready program) (valid : later.Valid)
    (extended : later.Extends resources) : later.Ready program :=
  ⟨valid, extended.main.trans ready.main, extended.delta.trans ready.delta⟩

/-- The planned store in which an atom is looked up. -/
def Resources.storeOf (resources : Resources) (separateDeltas delta : Bool) : StorePlan :=
  if delta && separateDeltas then resources.delta else resources.main

theorem Resources.Ready.registers_iff (ready : resources.Ready program) {symbol : RelationSymbol}
    (declared : symbol ∈ program.relations) (separateDeltas delta : Bool) :
    ((resources.storeOf separateDeltas delta).patterns? symbol).isSome = true ↔
      ((delta && separateDeltas) = true → symbol ∈ program.ruleSymbols) := by
  unfold Resources.storeOf
  by_cases separate : (delta && separateDeltas) = true
  · rw [if_pos separate, ready.delta.relations, StorePlan.isSome_patterns?_ofSymbols]
    simp [separate]
  · rw [if_neg separate, ready.main.relations, StorePlan.isSome_patterns?_ofSymbols]
    simp [separate, declared]

/-! ## Terms and bodies -/

theorem slotOf_refuses (name : String) {state : State} {allowed : SetupError → Prop} :
    Refuses (slotOf name) state allowed := by
  apply Refuses.get_bind
  split
  · exact .pure
  · exact .set_bind .pure

theorem constant_refuses (ground : GroundTerm) {state : State} {allowed : SetupError → Prop} :
    Refuses (constant ground) state allowed := by
  intro error outcome
  cases outcome

mutual

theorem term_refuses (context : Context) :
    (term : Term) → {state : State} →
      Refuses (Planner.term context term) state fun error => error.isAboutUse = false
  | .var name, state => by
      unfold Planner.term
      exact .seq (slotOf_refuses name) fun _ _ => .pure
  | .bool value, state => by
      unfold Planner.term
      exact constant_refuses _
  | .int value, state => by
      unfold Planner.term
      exact constant_refuses _
  | .str value, state => by
      unfold Planner.term
      exact constant_refuses _
  | .ctor name args, state => by
      unfold Planner.term
      apply Refuses.seq (termList_refuses context args)
      intro plans later
      split
      · exact constant_refuses _
      · exact .pure
  | .call function args, state => by
      unfold Planner.term
      split
      · exact .seq (termList_refuses context args) fun _ _ => .pure
      · exact .throw rfl

theorem termList_refuses (context : Context) :
    (terms : List Term) → {state : State} →
      Refuses (Planner.termList context terms) state fun error => error.isAboutUse = false
  | [], state => by
      unfold Planner.termList
      exact .pure
  | term :: terms, state => by
      unfold Planner.termList
      apply Refuses.seq (term_refuses context term)
      intro plan later
      exact .seq (termList_refuses context terms) fun _ _ => .pure

end

variable {state : State} {count : String → Nat} {bound : List String}

/-- Failures of planning a body: those about the use of a relation are deltas that are missed. -/
def BodyFailure (program : Program) (context : Context) (body : List BodyLiteral)
    (error : SetupError) : Prop :=
  error.isAboutUse = true → context.separateDeltas = true ∧ program.MissesDelta body error

theorem bodyFailure_of_other {body : List BodyLiteral} {error : SetupError}
    (other : error.isAboutUse = false) : BodyFailure program context body error := by
  intro aboutUse
  rw [other] at aboutUse
  cases aboutUse

theorem BodyFailure.mono {body more : List BodyLiteral} {error : SetupError}
    (failure : BodyFailure program context body error)
    (included : ∀ literal ∈ body, literal ∈ more) : BodyFailure program context more error :=
  fun aboutUse => ⟨(failure aboutUse).1, (failure aboutUse).2.mono included⟩

theorem requestIndex_refuses (ready : state.resources.Ready program) {symbol : RelationSymbol}
    (declared : symbol ∈ program.relations) {pattern : Pattern}
    (length : pattern.length = symbol.arity) (delta : Bool) :
    Refuses (requestIndex context symbol pattern delta) state fun error =>
      (delta && context.separateDeltas) = true ∧ symbol ∉ program.ruleSymbols ∧
        error = .unknownRelation symbol.name := by
  have registers := ready.registers_iff declared context.separateDeltas delta
  have failure : ∀ error,
      (state.resources.storeOf context.separateDeltas delta).request symbol pattern = .error error →
        (delta && context.separateDeltas) = true ∧ symbol ∉ program.ruleSymbols ∧
          error = .unknownRelation symbol.name := by
    intro error refused
    obtain ⟨missing, isUnknown⟩ := StorePlan.request_eq_error length refused
    rw [← Bool.not_eq_true, registers, Classical.not_imp] at missing
    exact ⟨missing.1, missing.2, isUnknown⟩
  unfold Resources.storeOf at failure
  apply Refuses.get_bind
  dsimp only
  split
  · next separate =>
      rw [if_pos separate] at failure
      exact .lift_bind failure fun _ _ => .set_bind .pure
  · next shared =>
      rw [if_neg shared] at failure
      exact .lift_bind failure fun _ _ => .set_bind .pure

theorem atom_refuses (ready : state.resources.Ready program) (valid : state.Valid) {atom : Atom}
    (uses : Program.Uses program.relations atom.symbol atom.args) (delta : Bool) :
    Refuses (Planner.atom context count bound delta atom) state
      (BodyFailure program context [{ literal := .predicate atom, delta }]) := by
  unfold Planner.atom
  have checks : checkArity atom = pure () := by
    unfold checkArity
    rw [if_pos uses.length_eq]
  rw [checks, pure_bind]
  apply Refuses.bind ((termList_refuses context atom.args).mono fun _ => bodyFailure_of_other)
    (termList_produces context atom.args valid)
  rintro args middle ⟨continues, -⟩
  have length : (atom.args.map (bindingOf count bound)).length = atom.symbol.arity := by
    rw [List.length_map, uses.length_eq]
  have readyThen := ready.mono continues.valid continues.extended
  refine Refuses.seq ((requestIndex_refuses readyThen uses.declared length delta).mono ?_)
    fun _ _ => .pure
  rintro error ⟨separate, missing, rfl⟩ -
  obtain ⟨rfl, separateDeltas⟩ := Bool.and_eq_true_iff.mp separate
  exact ⟨separateDeltas, atom, List.mem_singleton_self _, missing, rfl⟩

theorem literal_refuses (ready : state.resources.Ready program) (valid : state.Valid)
    {literal : BodyLiteral} (uses : program.UsesAll [literal]) :
    Refuses (Planner.literal context count bound literal) state
      (BodyFailure program context [literal]) := by
  obtain ⟨literal, delta⟩ := literal
  unfold Planner.literal
  match literal with
  | .unification lhs rhs true =>
      apply Refuses.mono _ fun _ => bodyFailure_of_other
      apply Refuses.seq (term_refuses context lhs)
      intro left middle
      exact .seq (term_refuses context rhs) fun _ _ => .pure
  | .unification lhs rhs false =>
      apply Refuses.mono _ fun _ => bodyFailure_of_other
      dsimp only
      split <;>
      · apply Refuses.seq (term_refuses context _)
        intro source middle
        exact .seq (term_refuses context _) fun _ _ => .pure
  | .predicate atom =>
      have usesAtom := uses atom delta (List.mem_singleton_self _)
      exact .seq (atom_refuses ready valid usesAtom delta) fun _ _ => .pure

theorem body_refuses (ready : state.resources.Ready program) (valid : state.Valid)
    {body : List BodyLiteral} (uses : program.UsesAll body) :
    Refuses (Planner.body context count bound body) state (BodyFailure program context body) := by
  induction body generalizing state bound with
  | nil => exact .pure
  | cons literal body ih =>
      have usesFirst : program.UsesAll [literal] := by
        intro atom delta member
        exact uses atom delta (List.mem_cons.mpr (.inl (List.mem_singleton.mp member)))
      have usesRest : program.UsesAll body := fun atom delta member =>
        uses atom delta (List.mem_cons_of_mem _ member)
      refine Refuses.bind ((literal_refuses ready valid usesFirst).mono fun _ failure => ?_)
        (literal_produces valid literal) ?_
      · exact BodyFailure.mono failure (by simp)
      · rintro planned middle ⟨continues, -⟩
        have readyThen := ready.mono continues.valid continues.extended
        have rest : Refuses (Planner.body context count (bound ++ literal.vars) body) middle _ :=
          ih readyThen continues.later_valid usesRest
        refine (rest.mono fun _ failure => BodyFailure.mono failure ?_).seq fun _ _ => .pure
        exact fun _ member => List.mem_cons_of_mem _ member

end Planner

end Datalog
