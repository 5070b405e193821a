import Datalog.Proofs.Evaluation.Merge
import Datalog.Proofs.Semantics.Variants

/-!
# Rounds

Between rounds the main store shows a model, and the delta shows the facts that the last round added.
A round collects what its rules derive from them and merges it.
-/

namespace Datalog

/-- The facts that the rules of some plans derive in one step. -/
def planConsequences (meaning : Interpretation) (plans : List RulePlan) (positive : Bool → Model)
    (negative : Model) : Model :=
  {fact | ∃ plan ∈ plans, fact ∈ plan.source.consequences meaning positive negative}

theorem planConsequences_inside (meaning : Interpretation) {plans : List RulePlan}
    (positive : Bool → Model) (negative : Model) {symbols : List RelationSymbol}
    (heads : ∀ plan ∈ plans, plan.headSymbol ∈ symbols) :
    ∀ fact ∈ planConsequences meaning plans positive negative, fact.1 ∈ symbols := by
  rintro fact ⟨plan, member, assignment, values, -, -, rfl⟩
  exact heads plan member

/-- Which relations the stores have: the declared ones, and those that rules derive. -/
structure Schema where
  declared : List RelationSymbol
  derived : List RelationSymbol
  derived_subset : ∀ symbol ∈ derived, symbol ∈ declared

namespace Workspace

/-- The stores between passes.  The main store shows a model and the delta the facts that are recent,
nothing is collected, and the two stores of deltas have the same indices. -/
structure AtRest (schema : Schema) (model recent : Model) (workspace : Workspace) : Prop where
  distinct : workspace.terms.Distinct
  db_usable : workspace.db.Usable
  delta_usable : workspace.delta.Usable
  nextDelta_usable : workspace.nextDelta.Usable
  db_shows : workspace.db.Shows workspace.terms model
  delta_shows : workspace.delta.Shows workspace.terms recent
  collected : ∀ symbol tuple, ¬ workspace.nextDelta.Holds symbol tuple
  db_registers : ∀ symbol ∈ schema.declared, workspace.db.Registers symbol
  delta_registers : ∀ symbol ∈ schema.derived, workspace.delta.Registers symbol
  nextDelta_registers : ∀ symbol ∈ schema.derived, workspace.nextDelta.Registers symbol
  twins : ∀ symbol number pattern, workspace.delta.Provides symbol number pattern ↔
    workspace.nextDelta.Provides symbol number pattern

variable {schema : Schema} {layout : Layout} {meaning : Interpretation} {rules : List RulePlan}
  {model recent : Model} {workspace later : Workspace}

def roundFrame (layout : Layout) (meaning : Interpretation) (rules : List RulePlan)
    (model recent : Model) : Frame where
  toLayout := layout
  meaning := meaning
  certain := reading model recent
  possible := reading model recent
  goal := planConsequences meaning rules (reading model recent) model
  frozen _ known _ := known

theorem AtRest.fits_round (atRest : workspace.AtRest schema model recent)
    (derived : ∀ symbol ∈ layout.symbols, symbol ∈ schema.derived) (meaning : Interpretation)
    (rules : List RulePlan) :
    workspace.Fits (roundFrame layout meaning rules model recent) .rounds where
  distinct := atRest.distinct
  source_valid marked := by
    cases marked
    · exact atRest.db_usable.valid
    · exact atRest.delta_usable.valid
  source_bounded marked := by
    cases marked
    · exact atRest.db_usable.bounded
    · exact atRest.delta_usable.bounded
  certain marked := by
    cases marked
    · exact atRest.db_shows.includes
    · exact atRest.delta_shows.includes
  possible marked := by
    cases marked
    · exact atRest.db_shows.within
    · exact atRest.delta_shows.within
  nextDelta_valid := atRest.nextDelta_usable.valid
  nextDelta_within symbol tuple holds := absurd holds (atRest.collected symbol tuple)
  nextDelta_symbols symbol tuple holds := absurd holds (atRest.collected symbol tuple)
  registers symbol member := atRest.nextDelta_registers symbol (derived symbol member)
  absorbs _ known := known
  spares symbol tuple holds := absurd holds (atRest.collected symbol tuple)

/-- The main store shows a model, whatever the deltas hold. -/
structure Lists (model : Model) (workspace : Workspace) : Prop where
  usable : workspace.db.Usable
  showing : workspace.db.Shows workspace.terms model

theorem AtRest.lists (atRest : workspace.AtRest schema model recent) : workspace.Lists model :=
  ⟨atRest.db_usable, atRest.db_shows⟩

/-- While a round is under way, the main store does not change. -/
theorem lists_of_fits_round
    (fits : workspace.Fits (roundFrame layout meaning rules model recent) .rounds) :
    workspace.Lists model :=
  ⟨⟨fits.source_valid false, fits.source_bounded false⟩, fits.possible false, fits.certain false⟩

/-- If everything that is derived has been reported, what is new of it is collected. -/
theorem shows_collected
    (fits : workspace.Fits (roundFrame layout meaning rules model recent) .rounds)
    (reported : ∀ fact ∈ planConsequences meaning rules (reading model recent) model,
      workspace.Reported fact) :
    workspace.nextDelta.Shows workspace.terms
      (planConsequences meaning rules (reading model recent) model \ model) := by
  constructor
  · intro symbol tuple holds
    obtain ⟨values, denotes, derived⟩ := fits.nextDelta_within symbol tuple holds
    refine ⟨values, denotes, derived, fun known => ?_⟩
    obtain ⟨other, otherHolds, otherDenotes⟩ := fits.certain false _ known
    obtain rfl := denotes.injective fits.distinct otherDenotes
    exact fits.spares symbol tuple holds otherHolds
  · rintro fact ⟨derived, unknown⟩
    obtain ⟨tuple, denotes, holds | holds⟩ := reported fact derived
    · exact absurd ((lists_of_fits_round fits).showing.within.model_subset ⟨tuple, holds, denotes⟩)
        unknown
    · exact ⟨tuple, holds, denotes⟩

/-- A round has been run: what its rules derive is known or has been collected. -/
structure Collected (layout : Layout) (meaning : Interpretation) (rules : List RulePlan)
    (model recent : Model) (start workspace : Workspace) : Prop where
  fits : workspace.Fits (roundFrame layout meaning rules model recent) .rounds
  grows : workspace.Grows layout.symbols start
  reported : ∀ fact ∈ planConsequences meaning rules (reading model recent) model,
    workspace.Reported fact

variable {context : FixpointContext}

theorem nextDelta_merge (workspace : Workspace) :
    (context.merge workspace).2.nextDelta = workspace.delta.clear := rfl

/-- The main store and what is merged into it show a model together with a goal that was reported. -/
theorem shows_merged {goal : Model} {symbols counted : List RelationSymbol} {result : Nat × FactStore}
    (merged : FactStore.Merged later.nextDelta later.db symbols counted result)
    (shows : later.db.Shows later.terms model) (within : later.nextDelta.Within later.terms goal)
    (reported : ∀ fact ∈ goal, later.Reported fact)
    (collects : ∀ symbol tuple, later.nextDelta.Holds symbol tuple →
      symbol ∈ symbols ∧ later.db.Registers symbol) :
    result.2.Shows later.terms (model ∪ goal) := by
  constructor
  · intro symbol tuple holds
    rcases (merged.holds_iff symbol tuple).mp holds with before | ⟨-, fresh, -⟩
    · obtain ⟨values, denotes, member⟩ := shows.within symbol tuple before
      exact ⟨values, denotes, .inl member⟩
    · obtain ⟨values, denotes, member⟩ := within symbol tuple fresh
      exact ⟨values, denotes, .inr member⟩
  · rintro fact (known | derived)
    · obtain ⟨tuple, holds, denotes⟩ := shows.includes fact known
      exact ⟨tuple, (merged.holds_iff _ _).mpr (.inl holds), denotes⟩
    · obtain ⟨tuple, denotes, before | fresh⟩ := reported fact derived
      · exact ⟨tuple, (merged.holds_iff _ _).mpr (.inl before), denotes⟩
      · obtain ⟨member, registers⟩ := collects _ _ fresh
        exact ⟨tuple, (merged.holds_iff _ _).mpr (.inr ⟨member, fresh, registers⟩), denotes⟩

theorem Collected.nextDelta_usable
    (collected : Collected layout meaning rules model recent workspace later)
    (atRest : workspace.AtRest schema model recent) : later.nextDelta.Usable :=
  ⟨collected.fits.nextDelta_valid,
    collected.grows.nextDelta.limits_eq ▸ atRest.nextDelta_usable.bounded⟩

/-- After the merge the stores are at rest, and what was collected is recent. -/
theorem Collected.atRest_merge
    (collected : Collected layout meaning rules model recent workspace later)
    (atRest : workspace.AtRest schema model recent) {whole : Model}
    (dbUsable : (context.merge later).2.db.Usable) (dbGrows : (context.merge later).2.db.Grows workspace.db)
    (dbShows : (context.merge later).2.db.Shows later.terms whole) :
    (context.merge later).2.AtRest schema whole (later.nextDelta.model later.terms) := by
  have fits := collected.fits
  have grows := collected.grows
  have deltaUsable : later.delta.Usable := ⟨fits.source_valid true, fits.source_bounded true⟩
  exact
    { distinct := fits.distinct
      db_usable := dbUsable
      delta_usable := collected.nextDelta_usable atRest
      nextDelta_usable := deltaUsable.clear
      db_shows := dbShows
      delta_shows := fits.nextDelta_within.shows_model
      collected := fun symbol tuple => deltaUsable.valid.not_holds_clear
      db_registers := fun symbol member =>
        dbGrows.registers_iff.mpr (atRest.db_registers symbol member)
      delta_registers := fun symbol member =>
        grows.nextDelta.registers_iff.mpr (atRest.nextDelta_registers symbol member)
      nextDelta_registers := fun symbol member => by
        rw [nextDelta_merge, FactStore.registers_clear, grows.delta]
        exact atRest.delta_registers symbol member
      twins := fun symbol number pattern => by
        rw [nextDelta_merge, FactStore.provides_clear, grows.delta, atRest.twins]
        exact grows.nextDelta.provides_iff }

theorem Collected.merge (collected : Collected layout meaning rules model recent workspace later)
    (atRest : workspace.AtRest schema model recent) (symbolsEq : layout.symbols = context.symbols)
    (derived : ∀ symbol ∈ layout.symbols, symbol ∈ schema.derived)
    (heads : ∀ plan ∈ rules, plan.headSymbol ∈ layout.symbols) :
    ∃ fresh, (context.merge later).2.AtRest schema
        (model ∪ planConsequences meaning rules (reading model recent) model) fresh ∧
      fresh ⊆ planConsequences meaning rules (reading model recent) model ∧
      planConsequences meaning rules (reading model recent) model ⊆ model ∪ fresh ∧
      (context.merge later).2.Keeps .rounds workspace ∧
      (context.merge later).1 =
        (planConsequences meaning rules (reading model recent) model \ model).ncard ∧
      (context.merge later).2.db.total layout.symbols =
        workspace.db.total layout.symbols + (context.merge later).1 := by
  have fits := collected.fits
  have grows := collected.grows
  obtain ⟨dbUsable, dbShown⟩ := lists_of_fits_round fits
  have nextWithin : later.nextDelta.Within later.terms
      (planConsequences meaning rules (reading model recent) model) := fits.nextDelta_within
  have merged := FactStore.merged_mergeInto (collected.nextDelta_usable atRest) dbUsable.valid
    layout.symbols_nodup fun symbol (member : symbol ∈ context.symbols) => symbolsEq ▸ member
  have dbGrows := merged.grows.trans grows.db
  have registers : ∀ symbol ∈ layout.symbols, later.db.Registers symbol := by
    intro symbol member
    have declared := schema.derived_subset symbol (derived symbol member)
    exact grows.db.registers_iff.mpr (atRest.db_registers symbol declared)
  have dbShows := shows_merged merged dbShown nextWithin collected.reported fun symbol tuple holds =>
    have member := fits.nextDelta_symbols symbol tuple holds
    ⟨symbolsEq ▸ member, registers symbol member⟩
  have mergedUsable : (FixpointContext.mergeInto later.nextDelta context.symbols
      later.db).2.Usable := ⟨merged.valid, merged.grows.limits_eq ▸ dbUsable.bounded⟩
  -- The main store held as many tuples before the merge as before the round.
  have grown := FactStore.total_add dbUsable fits.distinct dbShown mergedUsable fits.distinct dbShows
    layout.symbols_nodup (planConsequences_inside meaning (reading model recent) model heads)
  have same := FactStore.total_congr atRest.db_usable atRest.distinct atRest.db_shows dbUsable
    fits.distinct dbShown layout.symbols_nodup
  have total := merged.total
  refine ⟨later.nextDelta.model later.terms,
    collected.atRest_merge atRest mergedUsable dbGrows dbShows, nextWithin.model_subset, ?_, ?_, ?_, ?_⟩
  · intro fact member
    obtain ⟨tuple, denotes, before | fresh⟩ := collected.reported fact member
    · exact .inl (dbShown.within.model_subset ⟨tuple, before, denotes⟩)
    · exact .inr ⟨tuple, fresh, denotes⟩
  · refine ⟨grows.terms, fun marked symbol number pattern provides => ?_⟩
    cases marked
    · exact dbGrows.provides provides
    · exact grows.nextDelta.provides ((atRest.twins symbol number pattern).mp provides)
  · change (FixpointContext.mergeInto later.nextDelta context.symbols later.db).1 = _
    omega
  · change (FixpointContext.mergeInto later.nextDelta context.symbols later.db).2.total _ =
      _ + (FixpointContext.mergeInto later.nextDelta context.symbols later.db).1
    omega

end Workspace

/-- No task waits, and the stores are at rest. -/
structure Machine.AtRest (schema : Schema) (model recent : Model) (machine : Machine) : Prop where
  idle : machine.pool.queue = []
  stores : machine.workspace.AtRest schema model recent

end Datalog
