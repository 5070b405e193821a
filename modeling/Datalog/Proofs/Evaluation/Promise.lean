import Datalog.Proofs.Evaluation.Lookup

/-!
# Sound tasks and their promises

A task is sound if whatever it may report belongs to the goal, and it promises the facts that it is
sure to report, itself or through the tasks that it spawns.  Neither changes while the stores grow.
-/

namespace Datalog

variable {frame : Frame} {strategy : Strategy} {workspace later : Workspace}

namespace RulePlan

/-- A plan stands for its rule, and what the rule may derive belongs to the goal. -/
structure Sound (frame : Frame) (strategy : Strategy) (workspace : Workspace) (plan : RulePlan) :
    Prop where
  fits : plan.Fits frame.toLayout strategy workspace
  possible : plan.source.consequences frame.meaning frame.possible (frame.possible false) ⊆
    frame.goal

theorem Sound.mono {plan : RulePlan} (sound : plan.Sound frame strategy workspace)
    (grows : later.Grows frame.symbols workspace) : plan.Sound frame strategy later :=
  ⟨sound.fits.mono grows, sound.possible⟩

/-- If what remains of a body may hold, the head belongs to the goal. -/
def Leads (frame : Frame) (plan : RulePlan) (bindings : Bindings) (rest : List BodyLiteral) : Prop :=
  ∀ assignment, bindings.Agrees (frame.names plan) assignment →
    (∀ literal ∈ rest, frame.Maybe plan.source.varCount assignment literal) →
      ∀ values, Term.evalList frame.meaning assignment plan.source.head.args = some values →
        (plan.headSymbol, values) ∈ frame.goal

/-- What remains of a body is sure to hold, and a fact is the head. -/
def Concludes (frame : Frame) (plan : RulePlan) (rest : List BodyLiteral) (assignment : Assignment)
    (fact : GroundFact) : Prop :=
  (∀ literal ∈ rest, frame.Sure plan.source.varCount assignment literal) ∧
    ∃ values, Term.evalList frame.meaning assignment plan.source.head.args = some values ∧
      fact = (plan.headSymbol, values)

variable {plan : RulePlan} {bindings : Bindings} {rest : List BodyLiteral}

theorem Leads.mono {laterBindings : Bindings} (leads : plan.Leads frame bindings rest)
    (grounded : bindings.Grounded) (extended : laterBindings.Extends bindings) :
    plan.Leads frame laterBindings rest :=
  fun assignment agrees => leads assignment (extended.agrees grounded agrees)

theorem Sound.leads (sound : plan.Sound frame strategy workspace) (terms : TermStore)
    (count : Nat) :
    plan.Leads frame { terms, substitution := .unbound count } plan.source.body := by
  intro assignment _ holds values headEq
  exact sound.possible (DeltaRule.mem_consequences_of_holdsLoosely holds headEq)

theorem exists_concludes {fact : GroundFact}
    (member : fact ∈ plan.source.consequences frame.meaning frame.certain (frame.certain false)) :
    ∃ assignment, plan.Concludes frame plan.source.body assignment fact := by
  obtain ⟨assignment, values, holds, headEq, factEq⟩ := member
  exact ⟨assignment, holds, values, headEq, factEq⟩

end RulePlan

namespace PlanAtom

/-- A view holds tuples that have the values of an atom's bound arguments in the bound columns. -/
def Reads (frame : Frame) (strategy : Strategy) (workspace : Workspace) (names : List String)
    (planned : PlanAtom) (args : List Term) (substitution : Substitution) (view : View) : Prop :=
  ∃ index key,
    (strategy.source planned.delta workspace).index? planned.symbol planned.index = some index ∧
      view.From index key ∧
        Bindings.KeyOf frame.meaning names ⟨workspace.terms, substitution⟩ planned.pattern args key

/-- A view holds a tuple that agrees with a given one in the columns that are read. -/
def Finds (strategy : Strategy) (workspace : Workspace) (planned : PlanAtom) (tuple : Tuple)
    (view : View) : Prop :=
  ∃ index,
    (strategy.source planned.delta workspace).index? planned.symbol planned.index = some index ∧
      view.Covers index (index.pattern.keyOf tuple)

/-- A tuple has the values of an atom's free arguments in the free columns. -/
def Meets (meaning : Interpretation) (terms : TermStore) (planned : PlanAtom) (args : List Term)
    (assignment : Assignment) (tuple : Tuple) : Prop :=
  ∃ values, terms.DenotesAll (planned.pattern.keepFree tuple) values ∧
    Term.evalList meaning assignment (planned.pattern.keepFree args) = some values

variable {planned : PlanAtom} {view : View}

theorem Meets.mono {meaning : Interpretation} {terms moreTerms : TermStore} {args : List Term}
    {assignment : Assignment} {tuple : Tuple}
    (meets : planned.Meets meaning terms args assignment tuple)
    (grown : moreTerms.Extends terms) : planned.Meets meaning moreTerms args assignment tuple := by
  obtain ⟨values, denotes, valuesEq⟩ := meets
  exact ⟨values, denotes.mono grown, valuesEq⟩

theorem Reads.mono {names : List String} {args : List Term} {substitution : Substitution}
    (reads : planned.Reads frame strategy workspace names args substitution view)
    (grounded : Bindings.Grounded ⟨workspace.terms, substitution⟩)
    (grows : later.Grows frame.symbols workspace) :
    planned.Reads frame strategy later names args substitution view := by
  obtain ⟨index, key, indexEq, isFrom, keyOf⟩ := reads
  obtain ⟨index', indexEq', indexGrows⟩ := (grows.source strategy planned.delta).index? indexEq
  exact ⟨index', key, indexEq', isFrom.mono indexGrows, keyOf.mono grounded ⟨grows.terms, .refl _⟩⟩

theorem Finds.mono {tuple : Tuple} (finds : planned.Finds strategy workspace tuple view)
    {symbols : List RelationSymbol} (grows : later.Grows symbols workspace) :
    planned.Finds strategy later tuple view := by
  obtain ⟨index, indexEq, covers⟩ := finds
  obtain ⟨index', indexEq', indexGrows⟩ := (grows.source strategy planned.delta).index? indexEq
  refine ⟨index', indexEq', ?_⟩
  rw [indexGrows.pattern_eq]
  exact covers.mono indexGrows

end PlanAtom

namespace Task

/-- What a task may report belongs to the goal. -/
def Sound (frame : Frame) (strategy : Strategy) (workspace : Workspace) : Task → Prop
  | .load _ _ => False
  | .evaluate plan => plan.Sound frame strategy workspace
  | .scan plan position substitution view =>
      plan.Sound frame strategy workspace ∧
        Bindings.Grounded ⟨workspace.terms, substitution⟩ ∧
          plan.Leads frame ⟨workspace.terms, substitution⟩ (plan.source.body.drop position) ∧
            ∀ planned, plan.body[position]? = some (.scan planned) →
              ∀ atom, (plan.source.body[position]?).map (·.literal) = some (.predicate atom) →
                planned.Reads frame strategy workspace (frame.names plan) atom.args substitution view
  | .trigger plan tuple =>
      plan.Sound frame strategy workspace ∧
        ∀ symbol, plan.deltaSymbol? = some symbol →
          (strategy.source true workspace).Holds symbol tuple

/-- A fact that a task is sure to report, or to leave to the tasks that it spawns. -/
def Promises (frame : Frame) (strategy : Strategy) (workspace : Workspace) (fact : GroundFact) :
    Task → Prop
  | .evaluate plan =>
      fact ∈ plan.source.consequences frame.meaning frame.certain (frame.certain false)
  | .scan plan position substitution view => ∃ assignment planned atom tuple,
      Bindings.Agrees (frame.names plan) ⟨workspace.terms, substitution⟩ assignment ∧
        plan.Concludes frame (plan.source.body.drop (position + 1)) assignment fact ∧
          plan.body[position]? = some (.scan planned) ∧
            (plan.source.body[position]?).map (·.literal) = some (.predicate atom) ∧
              tuple.length = planned.symbol.arity ∧
                planned.Meets frame.meaning workspace.terms atom.args assignment tuple ∧
                  planned.Finds strategy workspace tuple view
  | .trigger plan tuple => ∃ assignment position atom values,
      plan.deltaPosition? = some position ∧
        (plan.source.body[position]?).map (·.literal) = some (.predicate atom) ∧
          plan.Concludes frame plan.source.body assignment fact ∧
            Term.evalList frame.meaning assignment atom.args = some values ∧
              workspace.terms.DenotesAll tuple values
  | .load _ _ => False

theorem Sound.mono {task : Task} (sound : task.Sound frame strategy workspace)
    (grows : later.Grows frame.symbols workspace) : task.Sound frame strategy later := by
  cases task with
  | load symbol facts => exact sound
  | evaluate plan => exact RulePlan.Sound.mono sound grows
  | scan plan position substitution view =>
      obtain ⟨planSound, grounded, leads, reads⟩ := sound
      refine ⟨planSound.mono grows, grounded.mono grows.terms rfl,
        leads.mono grounded ⟨grows.terms, .refl _⟩, ?_⟩
      intro planned atPosition atom atSource
      exact (reads planned atPosition atom atSource).mono grounded grows
  | trigger plan tuple =>
      obtain ⟨planSound, holds⟩ := sound
      exact ⟨planSound.mono grows, fun symbol isDelta =>
        (grows.source strategy true).holds _ _ (holds symbol isDelta)⟩

theorem Promises.mono {task : Task} {fact : GroundFact}
    (promises : task.Promises frame strategy workspace fact)
    (grows : later.Grows frame.symbols workspace) : task.Promises frame strategy later fact := by
  cases task with
  | load symbol facts => exact promises
  | evaluate plan => exact promises
  | scan plan position substitution view =>
      obtain ⟨assignment, planned, atom, tuple, agrees, concludes, atPosition, atSource, length,
        meets, finds⟩ := promises
      exact ⟨assignment, planned, atom, tuple, agrees.mono grows.terms rfl, concludes, atPosition,
        atSource, length, meets.mono grows.terms, finds.mono grows⟩
  | trigger plan tuple =>
      obtain ⟨assignment, position, atom, values, atDelta, atSource, concludes, valuesEq, denotes⟩ :=
        promises
      exact ⟨assignment, position, atom, values, atDelta, atSource, concludes, valuesEq,
        denotes.mono grows.terms⟩

end Task

namespace TaskState

/-- A task runs in a workspace that fits the frame, and has spawned sound tasks only. -/
structure Ready (frame : Frame) (strategy : Strategy) (state : TaskState) : Prop where
  fits : state.workspace.Fits frame strategy
  triggered : ∀ plan ∈ strategy.triggered, plan.Sound frame strategy state.workspace
  spawned : ∀ task ∈ state.spawned, task.Sound frame strategy state.workspace
  grounded : state.bindings.Grounded

theorem Ready.withBindings {state : TaskState} (ready : state.Ready frame strategy)
    {bindings : Bindings} (distinct : bindings.terms.Distinct) (grounded : bindings.Grounded)
    (grown : bindings.terms.Extends state.workspace.terms) :
    (state.withBindings bindings).Ready frame strategy where
  fits := ready.fits.withTerms distinct grown
  triggered plan member := (ready.triggered plan member).mono (Workspace.grows_withTerms grown)
  spawned task member := (ready.spawned task member).mono (Workspace.grows_withTerms grown)
  grounded := grounded

end TaskState

end Datalog
