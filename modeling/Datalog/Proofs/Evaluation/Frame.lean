import Datalog.Evaluation.Task
import Datalog.Proofs.Evaluation.Matching
import Datalog.Proofs.Semantics.Consequence
import Datalog.Proofs.Store.FactStore

/-!
# Frames

While tasks run, the stores may grow.  A frame says what can be relied on meanwhile: the facts that
are certain to be found, the facts that may be found, and the facts that may be reported.  A workspace
fits a frame if its stores hold at least the former and at most the latter.
-/

namespace Datalog

/-- What is the same for all passes over a stratum. -/
structure Layout where
  /-- The variables that the slots of a plan stand for. -/
  names : RulePlan → List String
  /-- The relations that may grow. -/
  symbols : List RelationSymbol
  symbols_nodup : symbols.Nodup

/-- What tasks rely on.  Facts of marked atoms are looked up in deltas. -/
structure Frame extends Layout where
  meaning : Interpretation
  certain : Bool → Model
  possible : Bool → Model
  goal : Model
  frozen : ∀ fact ∈ possible false, fact.1 ∉ symbols → fact ∈ certain false

/-- The store that atoms are looked up in. -/
def Strategy.source (strategy : Strategy) (delta : Bool) (workspace : Workspace) : FactStore :=
  match strategy with
  | .rounds => if delta then workspace.delta else workspace.db
  | .eager _ => workspace.db

/-- The store that new tuples enter. -/
def Strategy.sink (strategy : Strategy) (workspace : Workspace) : FactStore :=
  match strategy with
  | .rounds => workspace.nextDelta
  | .eager _ => workspace.db

theorem storeFor_eq (context : TaskContext) (atom : PlanAtom) (workspace : Workspace) :
    context.storeFor atom workspace = context.strategy.source atom.delta workspace := by
  unfold TaskContext.storeFor Strategy.source
  rfl

/-- The rules that new tuples trigger. -/
def Strategy.triggered : Strategy → List RulePlan
  | .rounds => []
  | .eager rules => rules

/-- The relations that may grow in the main store, of those that rules derive. -/
def Strategy.growing (symbols : List RelationSymbol) : Strategy → List RelationSymbol
  | .rounds => []
  | .eager _ => symbols

/-- Where new tuples are found at once, what may be reported may be found; in rounds the main store
does not change. -/
def Strategy.Absorbs (frame : Frame) : Strategy → Prop
  | .rounds => frame.possible false ⊆ frame.certain false
  | .eager _ => ∀ delta, frame.goal ⊆ frame.possible delta

/-- Where new tuples enter the main store, none is collected for a next round; in rounds none is
collected that is known. -/
def Strategy.Spares (workspace : Workspace) : Strategy → Prop
  | .rounds => ∀ symbol tuple, workspace.nextDelta.Holds symbol tuple →
      ¬ workspace.db.Holds symbol tuple
  | .eager _ => ∀ symbol tuple, ¬ workspace.nextDelta.Holds symbol tuple

namespace FactStore

/-- The number of tuples of some relations. -/
def total (symbols : List RelationSymbol) (store : FactStore) : Nat :=
  (symbols.map store.countDistinct).sum

/-- Every tuple of a store denotes a fact of a model. -/
def Within (store : FactStore) (terms : TermStore) (model : Model) : Prop :=
  ∀ symbol tuple, store.Holds symbol tuple →
    ∃ values, terms.DenotesAll tuple values ∧ (symbol, values) ∈ model

/-- Every fact of a model is denoted by a tuple of a store. -/
def Includes (store : FactStore) (terms : TermStore) (model : Model) : Prop :=
  ∀ fact ∈ model, ∃ tuple, store.Holds fact.1 tuple ∧ terms.DenotesAll tuple fact.2

/-- The facts that a store's tuples denote. -/
def model (store : FactStore) (terms : TermStore) : Model :=
  {fact | ∃ tuple, store.Holds fact.1 tuple ∧ terms.DenotesAll tuple fact.2}

/-- The tuples of a store denote the facts of a model. -/
structure Shows (store : FactStore) (terms : TermStore) (model : Model) : Prop where
  within : store.Within terms model
  includes : store.Includes terms model

variable {store later : FactStore} {terms moreTerms : TermStore} {model : Model}

theorem Within.model_subset (within : store.Within terms model) : store.model terms ⊆ model := by
  rintro fact ⟨tuple, holds, denotes⟩
  obtain ⟨values, denotes', member⟩ := within fact.1 tuple holds
  rwa [denotes'.unique denotes] at member

/-- A store whose tuples denote facts shows these facts. -/
theorem Within.shows_model (within : store.Within terms model) :
    store.Shows terms (store.model terms) := by
  refine ⟨fun symbol tuple holds => ?_, fun _ known => known⟩
  obtain ⟨values, denotes, -⟩ := within symbol tuple holds
  exact ⟨values, denotes, tuple, holds, denotes⟩

theorem Shows.model_eq (shows' : store.Shows terms model) : store.model terms = model :=
  Set.Subset.antisymm shows'.within.model_subset shows'.includes

theorem Within.mono (within : store.Within terms model) (grown : moreTerms.Extends terms) :
    store.Within moreTerms model := by
  intro symbol tuple holds
  obtain ⟨values, denotes, member⟩ := within symbol tuple holds
  exact ⟨values, denotes.mono grown, member⟩

theorem Includes.mono (includes : store.Includes terms model) (kept : later.Grows store)
    (grown : moreTerms.Extends terms) : later.Includes moreTerms model := by
  intro fact member
  obtain ⟨tuple, holds, denotes⟩ := includes fact member
  exact ⟨tuple, kept.holds _ _ holds, denotes.mono grown⟩

theorem Grows.model_subset (kept : later.Grows store) (grown : moreTerms.Extends terms) :
    store.model terms ⊆ later.model moreTerms :=
  Includes.mono (fun _ known => known) kept grown

end FactStore

namespace Workspace

/-- A workspace after some steps: terms and tuples were added, and what was added was counted. -/
structure Grows (symbols : List RelationSymbol) (later earlier : Workspace) : Prop where
  terms : later.terms.Extends earlier.terms
  db : later.db.Grows earlier.db
  delta : later.delta = earlier.delta
  nextDelta : later.nextDelta.Grows earlier.nextDelta
  counted : later.derived + earlier.db.total symbols + earlier.nextDelta.total symbols =
    earlier.derived + later.db.total symbols + later.nextDelta.total symbols

variable {symbols : List RelationSymbol} {first second third : Workspace}

theorem Grows.refl (workspace : Workspace) : workspace.Grows symbols workspace :=
  ⟨.refl _, .refl _, rfl, .refl _, rfl⟩

theorem Grows.trans (right : third.Grows symbols second) (left : second.Grows symbols first) :
    third.Grows symbols first where
  terms := right.terms.trans left.terms
  db := right.db.trans left.db
  delta := right.delta.trans left.delta
  nextDelta := right.nextDelta.trans left.nextDelta
  counted := by
    have := right.counted
    have := left.counted
    omega

theorem Grows.source (grows : second.Grows symbols first) (strategy : Strategy) (delta : Bool) :
    (strategy.source delta second).Grows (strategy.source delta first) := by
  cases strategy with
  | rounds =>
      cases delta with
      | true =>
          change second.delta.Grows first.delta
          rw [grows.delta]
          exact .refl _
      | false => exact grows.db
  | eager _ => exact grows.db

/-- The stores of a workspace hold at least what is certain and at most what is possible, and new
tuples belong to the goal. -/
structure Fits (frame : Frame) (strategy : Strategy) (workspace : Workspace) : Prop where
  distinct : workspace.terms.Distinct
  source_valid : ∀ delta, (strategy.source delta workspace).Valid
  source_bounded : ∀ delta, (strategy.source delta workspace).limits.Bounded
  certain : ∀ delta, (strategy.source delta workspace).Includes workspace.terms (frame.certain delta)
  possible : ∀ delta, (strategy.source delta workspace).Within workspace.terms (frame.possible delta)
  nextDelta_valid : workspace.nextDelta.Valid
  nextDelta_within : workspace.nextDelta.Within workspace.terms frame.goal
  nextDelta_symbols : ∀ symbol tuple, workspace.nextDelta.Holds symbol tuple →
    symbol ∈ frame.symbols
  registers : ∀ symbol ∈ frame.symbols, (strategy.sink workspace).Registers symbol
  absorbs : strategy.Absorbs frame
  spares : strategy.Spares workspace

/-- What may be found of a relation that does not grow is certain to be found. -/
theorem Fits.frozen {frame : Frame} {strategy : Strategy} {workspace : Workspace}
    (fits : workspace.Fits frame strategy) {fact : GroundFact}
    (known : fact ∈ frame.possible false) (outside : fact.1 ∉ strategy.growing frame.symbols) :
    fact ∈ frame.certain false := by
  cases strategy with
  | rounds => exact fits.absorbs known
  | eager _ => exact frame.frozen fact known outside

theorem source_false (strategy : Strategy) (workspace : Workspace) :
    strategy.source false workspace = workspace.db := by
  cases strategy <;> rfl

theorem Fits.withTerms {frame : Frame} {strategy : Strategy} {workspace : Workspace}
    (fits : workspace.Fits frame strategy) {terms : TermStore} (distinct : terms.Distinct)
    (grown : terms.Extends workspace.terms) : Fits frame strategy { workspace with terms } := by
  have same : ∀ delta, strategy.source delta { workspace with terms } =
      strategy.source delta workspace := by
    intro delta
    cases strategy <;> rfl
  have sameSink : strategy.sink { workspace with terms } = strategy.sink workspace := by
    cases strategy <;> rfl
  refine ⟨distinct, fun delta => ?_, fun delta => ?_, fun delta => ?_, fun delta => ?_,
    fits.nextDelta_valid, fits.nextDelta_within.mono grown, fits.nextDelta_symbols,
    sameSink ▸ fits.registers, fits.absorbs, ?_⟩
  · rw [same]
    exact fits.source_valid delta
  · rw [same]
    exact fits.source_bounded delta
  · rw [same]
    exact (fits.certain delta).mono (.refl _) grown
  · rw [same]
    exact (fits.possible delta).mono grown
  · cases strategy <;> exact fits.spares

theorem grows_withTerms {workspace : Workspace} {terms : TermStore}
    (grown : terms.Extends workspace.terms) :
    Grows symbols { workspace with terms } workspace :=
  ⟨grown, .refl _, rfl, .refl _, rfl⟩

theorem Fits.withDraws {frame : Frame} {strategy : Strategy} {workspace : Workspace}
    (fits : workspace.Fits frame strategy) (draws : Draws) :
    Fits frame strategy { workspace with draws } := by
  cases strategy <;> exact { fits with }

theorem grows_withDraws (workspace : Workspace) (draws : Draws) :
    Grows symbols { workspace with draws } workspace :=
  ⟨.refl _, .refl _, rfl, .refl _, rfl⟩

/-- A fact was found before or has been reported. -/
def Reported (workspace : Workspace) (fact : GroundFact) : Prop :=
  ∃ tuple, workspace.terms.DenotesAll tuple fact.2 ∧
    (workspace.db.Holds fact.1 tuple ∨ workspace.nextDelta.Holds fact.1 tuple)

theorem Reported.mono {workspace later : Workspace} {fact : GroundFact}
    (reported : workspace.Reported fact) (grows : later.Grows symbols workspace) :
    later.Reported fact := by
  obtain ⟨tuple, denotes, holds⟩ := reported
  refine ⟨tuple, denotes.mono grows.terms, ?_⟩
  rcases holds with holds | holds
  · exact .inl (grows.db.holds _ _ holds)
  · exact .inr (grows.nextDelta.holds _ _ holds)

end Workspace

/-! ## Plans that fit -/

/-- What plans refer to: terms, and indices for the atoms that are marked and for the others. -/
structure Referents where
  terms : TermStore
  provides : Bool → RelationSymbol → Nat → Pattern → Prop

structure Referents.Keeps (later earlier : Referents) : Prop where
  terms : later.terms.Extends earlier.terms
  provides : ∀ delta symbol number pattern,
    earlier.provides delta symbol number pattern → later.provides delta symbol number pattern

theorem Referents.Keeps.trans {first second third : Referents} (right : third.Keeps second)
    (left : second.Keeps first) : third.Keeps first :=
  ⟨right.terms.trans left.terms, fun delta symbol number pattern provides =>
    right.provides delta symbol number pattern (left.provides delta symbol number pattern provides)⟩

/-- The terms and the indices of a workspace. -/
def Workspace.referents (strategy : Strategy) (workspace : Workspace) : Referents where
  terms := workspace.terms
  provides delta := (strategy.source delta workspace).Provides

abbrev Workspace.Keeps (strategy : Strategy) (later earlier : Workspace) : Prop :=
  (later.referents strategy).Keeps (earlier.referents strategy)

theorem Workspace.Grows.keeps {symbols : List RelationSymbol} {later earlier : Workspace}
    (grows : later.Grows symbols earlier) (strategy : Strategy) : later.Keeps strategy earlier :=
  ⟨grows.terms, fun delta _ _ _ provides => (grows.source strategy delta).provides provides⟩

/-- An atom of a plan stands for an atom of a rule, and the index that it names exists. -/
structure PlanAtom.Fits (referents : Referents) (names : List String) (count : String → Nat)
    (planned : PlanAtom) (atom : Atom) (delta : Bool) : Prop where
  symbol_eq : planned.symbol = atom.symbol
  delta_eq : planned.delta = delta
  args : PlanTerm.RepresentsAll referents.terms names planned.args atom.args
  args_length : atom.args.length = planned.pattern.length
  arity : planned.pattern.length = planned.symbol.arity
  provides : referents.provides delta planned.symbol planned.index planned.pattern
  ignored : ∀ arg, (arg, Binding.ignored) ∈ atom.args.zip planned.pattern →
    ∃ name, arg = .var name ∧ count name = 1
  counted : ∀ name, atom.vars.count name ≤ count name

/-- A literal of a plan stands for a literal of a rule.  A negated atom has no free columns, and the
variables of its bound columns occur elsewhere in the rule as well. -/
def PlanLiteral.Fits (growing : List RelationSymbol) (referents : Referents) (names : List String)
    (count : String → Nat) (planned : PlanLiteral) (literal : BodyLiteral) : Prop :=
  match planned with
  | .unify source pattern => ∃ first second : Term,
      (literal.literal = .unification first second false ∨
        literal.literal = .unification second first false) ∧
        source.Represents referents.terms names first ∧
          pattern.Represents referents.terms names second
  | .disunify lhs rhs => ∃ first second : Term,
      literal.literal = .unification first second true ∧
        lhs.Represents referents.terms names first ∧ rhs.Represents referents.terms names second
  | .scan planned => ∃ atom : Atom, literal.literal = .predicate atom ∧ atom.negated = false ∧
      planned.Fits referents names count atom literal.delta
  | .absent planned => ∃ atom : Atom, literal.literal = .predicate atom ∧ atom.negated = true ∧
      literal.delta = false ∧ atom.symbol ∉ growing ∧
        (∀ binding ∈ planned.pattern, binding ≠ .free) ∧
          (∀ arg, (arg, Binding.bound) ∈ atom.args.zip planned.pattern →
            ∀ name ∈ arg.vars, count name ≠ 1) ∧
            planned.Fits referents names count atom literal.delta

/-- A plan stands for its rule. -/
structure RulePlan.Fits (layout : Layout) (strategy : Strategy) (workspace : Workspace)
    (plan : RulePlan) : Prop where
  names_nodup : (layout.names plan).Nodup
  head : PlanTerm.RepresentsAll workspace.terms (layout.names plan) plan.head plan.source.head.args
  head_length : plan.source.head.args.length = plan.headSymbol.arity
  head_symbol : plan.headSymbol ∈ layout.symbols
  body : List.Forall₂ (PlanLiteral.Fits (strategy.growing layout.symbols)
    (workspace.referents strategy) (layout.names plan) plan.source.varCount)
      plan.body plan.source.body

variable {layout : Layout} {strategy : Strategy} {workspace later : Workspace}
  {referents moreReferents : Referents}
  {symbols : List RelationSymbol} {names moreNames : List String} {count : String → Nat}

theorem PlanAtom.Fits.keep {planned : PlanAtom} {atom : Atom} {delta : Bool}
    (fits : planned.Fits referents names count atom delta)
    (keeps : moreReferents.Keeps referents) (named : names <+: moreNames) :
    planned.Fits moreReferents moreNames count atom delta :=
  { fits with
    args := fits.args.mono keeps.terms named
    provides := keeps.provides _ _ _ _ fits.provides }

theorem PlanLiteral.Fits.keep {planned : PlanLiteral} {literal : BodyLiteral}
    (fits : planned.Fits symbols referents names count literal)
    (keeps : moreReferents.Keeps referents) (named : names <+: moreNames) :
    planned.Fits symbols moreReferents moreNames count literal := by
  cases planned with
  | unify source pattern =>
      obtain ⟨first, second, literalEq, represents, represents'⟩ := fits
      exact ⟨first, second, literalEq, represents.mono keeps.terms named,
        represents'.mono keeps.terms named⟩
  | disunify lhs rhs =>
      obtain ⟨first, second, literalEq, represents, represents'⟩ := fits
      exact ⟨first, second, literalEq, represents.mono keeps.terms named,
        represents'.mono keeps.terms named⟩
  | scan planned =>
      obtain ⟨atom, literalEq, positive, atomFits⟩ := fits
      exact ⟨atom, literalEq, positive, atomFits.keep keeps named⟩
  | absent planned =>
      obtain ⟨atom, literalEq, negated, unmarked, frozen, noFree, often, atomFits⟩ := fits
      exact ⟨atom, literalEq, negated, unmarked, frozen, noFree, often, atomFits.keep keeps named⟩

theorem RulePlan.Fits.keep {plan : RulePlan} (fits : plan.Fits layout strategy workspace)
    (keeps : later.Keeps strategy workspace) : plan.Fits layout strategy later :=
  { fits with
    head := fits.head.mono keeps.terms (List.prefix_refl _)
    body := fits.body.imp fun _ _ literalFits => literalFits.keep keeps (List.prefix_refl _) }

theorem PlanAtom.Fits.mono {planned : PlanAtom} {atom : Atom} {delta : Bool}
    (fits : planned.Fits (workspace.referents strategy) names count atom delta)
    (grows : later.Grows symbols workspace) :
    planned.Fits (later.referents strategy) names count atom delta :=
  fits.keep (grows.keeps strategy) (List.prefix_refl _)

theorem PlanLiteral.Fits.mono {planned : PlanLiteral} {literal : BodyLiteral}
    {growing : List RelationSymbol}
    (fits : planned.Fits growing (workspace.referents strategy) names count literal)
    (grows : later.Grows symbols workspace) :
    planned.Fits growing (later.referents strategy) names count literal :=
  fits.keep (grows.keeps strategy) (List.prefix_refl _)

theorem RulePlan.Fits.mono {plan : RulePlan} (fits : plan.Fits layout strategy workspace)
    (grows : later.Grows layout.symbols workspace) : plan.Fits layout strategy later :=
  fits.keep (grows.keeps strategy)

/-! ## What literals promise -/

namespace Frame

/-- A literal holds in what is certain. -/
def Sure (frame : Frame) (count : String → Nat) (assignment : Assignment) (literal : BodyLiteral) :
    Prop :=
  literal.Holds frame.meaning frame.certain (frame.certain false) count assignment

/-- A literal holds in what is possible, up to variables that occur nowhere else. -/
def Maybe (frame : Frame) (count : String → Nat) (assignment : Assignment) (literal : BodyLiteral) :
    Prop :=
  literal.HoldsLoosely frame.meaning frame.possible (frame.possible false) count assignment

end Frame

end Datalog
