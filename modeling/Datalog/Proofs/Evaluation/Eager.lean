import Datalog.Proofs.Evaluation.Rounds

/-!
# Eager passes

An eager pass adds at least what its rules derive from the store that it starts with, and never leaves
the least model.  When a sweep over the delta rules adds nothing, the store is closed.
-/

namespace Datalog

variable {meaning : Interpretation} {rules : List Rule} {schema : Schema} {layout : Layout}
  {start model : Model} {machine : Machine}

/-- The frame of an eager pass: what was stored is certain, and only facts of the least model are
added. -/
def eagerFrame (layout : Layout) (meaning : Interpretation) (start model least : Model)
    (lower : start ⊆ model) (elsewhere : ∀ fact ∈ least, fact.1 ∉ layout.symbols → fact ∈ start) :
    Frame where
  toLayout := layout
  meaning := meaning
  certain _ := model
  possible _ := least
  goal := least
  frozen fact known outside := lower (elsewhere fact known outside)

/-- The main store shows a model between two others, whatever the deltas hold. -/
def Workspace.ListsBetween (lower upper : Model) (workspace : Workspace) : Prop :=
  ∃ model, workspace.Lists model ∧ lower ⊆ model ∧ model ⊆ upper

theorem Workspace.ListsBetween.mono {lower lower' upper : Model} {workspace : Workspace}
    (between : workspace.ListsBetween lower' upper) (included : lower ⊆ lower') :
    workspace.ListsBetween lower upper := by
  obtain ⟨model, lists, above, below⟩ := between
  exact ⟨model, lists, included.trans above, below⟩

/-- What an eager pass has stored is between what is certain and what is possible at any time. -/
theorem listsBetween_of_fits {workspace : Workspace} {triggered : List RulePlan} {least : Model}
    {lower : start ⊆ model} {elsewhere : ∀ fact ∈ least, fact.1 ∉ layout.symbols → fact ∈ start}
    (fits : workspace.Fits (eagerFrame layout meaning start model least lower elsewhere)
      (.eager triggered)) : workspace.ListsBetween model least := by
  have within : workspace.db.Within workspace.terms least := fits.possible false
  exact ⟨workspace.db.model workspace.terms, ⟨⟨fits.source_valid false, fits.source_bounded false⟩,
    within.shows_model⟩, fits.certain false, within.model_subset⟩

/-- The main store shows a model between a start and the least model. -/
structure Machine.OnTheWay (schema : Schema) (meaning : Interpretation) (rules : List Rule)
    (start model : Model) (machine : Machine) : Prop where
  atRest : machine.AtRest schema model ∅
  lower : start ⊆ model
  upper : model ⊆ leastModel meaning rules start start

/-- An eager evaluation starts to count anew. -/
def Machine.restarted (machine : Machine) : Machine :=
  { machine with workspace := { machine.workspace with derived := 0 } }

theorem Machine.restarted_keeps (machine : Machine) (triggered : List RulePlan) :
    machine.restarted.workspace.Keeps (.eager triggered) machine.workspace :=
  ⟨.refl _, fun _ _ _ _ provides => provides⟩

theorem Machine.AtRest.onTheWay_restarted (atRest : machine.AtRest schema model ∅) :
    machine.restarted.OnTheWay schema meaning rules model model :=
  ⟨⟨atRest.idle, { atRest.stores with }⟩, fun _ known => known, base_subset_leastModel⟩

/-- Passes have been run, and what they added has been counted. -/
structure Machine.Passed (schema : Schema) (layout : Layout) (meaning : Interpretation)
    (rules : List Rule) (start model next : Model) (added : Nat) (later earlier : Machine) :
    Prop where
  onTheWay : later.OnTheWay schema meaning rules start next
  grows : model ⊆ next
  keeps : ∀ triggered, later.workspace.Keeps (.eager triggered) earlier.workspace
  total : later.workspace.db.total layout.symbols =
    earlier.workspace.db.total layout.symbols + added
  derived : later.workspace.derived = earlier.workspace.derived + added

namespace FixpointContext

variable {context : FixpointContext}

/-- Only relations of the stratum have more facts in the least model. -/
theorem elsewhere_of_prepared (prepared : context.Prepared schema layout meaning rules)
    (start : Model) :
    ∀ fact ∈ leastModel meaning rules start start, fact.1 ∉ layout.symbols → fact ∈ start := by
  intro fact known outside
  refine mem_base_of_mem_leastModel known fun rule member same => ?_
  exact outside (same ▸ prepared.heads rule member)

theorem interns_pass (plans : List RulePlan) : Interns (context.pass plans) :=
  .get_bind fun _ => .bind (context.interns_runRules _ _) fun _ => .get_bind fun _ => .pure

theorem interns_sweeps (fuel : Nat) : Interns (context.sweeps fuel) := by
  induction fuel with
  | zero => exact .throw
  | succ fuel ih =>
      exact .bind (interns_pass _) fun _ => .ite .pure (.bind ih fun _ => .pure)

theorem interns_evaluateEagerly (rank : Nat) : Interns (context.evaluateEagerly rank) := by
  refine .bind (interns_updateWorkspace fun _ => rfl) fun _ => ?_
  refine .bind (interns_pass _) fun _ => .bind (interns_sweeps _) fun _ => ?_
  exact .get_bind fun _ => .pure

/-- Between passes the stores fit the frame of the next pass. -/
theorem fits_eager (onTheWay : machine.OnTheWay schema meaning rules start model)
    (elsewhere : ∀ fact ∈ leastModel meaning rules start start,
      fact.1 ∉ layout.symbols → fact ∈ start)
    (declared : ∀ symbol ∈ layout.symbols, symbol ∈ schema.declared) (triggered : List RulePlan) :
    machine.workspace.Fits (eagerFrame layout meaning start model
      (leastModel meaning rules start start) onTheWay.lower elsewhere) (.eager triggered) := by
  have stores := onTheWay.atRest.stores
  exact
    { distinct := stores.distinct
      source_valid := fun _ => stores.db_usable.valid
      source_bounded := fun _ => stores.db_usable.bounded
      certain := fun _ => stores.db_shows.includes
      possible := fun _ symbol tuple holds => by
        obtain ⟨values, denotes, known⟩ := stores.db_shows.within symbol tuple holds
        exact ⟨values, denotes, onTheWay.upper known⟩
      nextDelta_valid := stores.nextDelta_usable.valid
      nextDelta_within := fun symbol tuple holds => absurd holds (stores.collected symbol tuple)
      nextDelta_symbols := fun symbol tuple holds => absurd holds (stores.collected symbol tuple)
      registers := fun symbol member => stores.db_registers symbol (declared symbol member)
      absorbs := fun _ _ known => known
      spares := stores.collected }

theorem atRest_of_grows {frame : Frame} {triggered : List RulePlan} {workspace later : Workspace}
    {recent : Model} (atRest : workspace.AtRest schema model recent)
    (fits : later.Fits frame (.eager triggered)) (grows : later.Grows layout.symbols workspace) :
    later.AtRest schema (later.db.model later.terms) recent where
  distinct := fits.distinct
  db_usable := ⟨fits.source_valid false, fits.source_bounded false⟩
  delta_usable := grows.delta ▸ atRest.delta_usable
  nextDelta_usable :=
    ⟨fits.nextDelta_valid, grows.nextDelta.limits_eq ▸ atRest.nextDelta_usable.bounded⟩
  db_shows := by
    refine ⟨fun symbol tuple holds => ?_, fun _ known => known⟩
    obtain ⟨values, denotes, -⟩ := fits.possible false symbol tuple holds
    exact ⟨values, denotes, tuple, holds, denotes⟩
  delta_shows := by
    rw [grows.delta]
    exact ⟨atRest.delta_shows.within.mono grows.terms,
      atRest.delta_shows.includes.mono (.refl _) grows.terms⟩
  collected := fits.spares
  db_registers symbol member := grows.db.registers_iff.mpr (atRest.db_registers symbol member)
  delta_registers := grows.delta ▸ atRest.delta_registers
  nextDelta_registers symbol member :=
    grows.nextDelta.registers_iff.mpr (atRest.nextDelta_registers symbol member)
  twins symbol number pattern := by
    rw [grows.delta, atRest.twins]
    exact grows.nextDelta.provides_iff.symm

/-- The relations of the stratum grow by the facts that are new. -/
theorem total_of_atRest (layout : Layout) {workspace later : Workspace} {next recent laterRecent : Model}
    (atRest : workspace.AtRest schema model recent)
    (laterAtRest : later.AtRest schema next laterRecent) (grown : model ⊆ next)
    (elsewhere : ∀ fact ∈ next, fact.1 ∉ layout.symbols → fact ∈ model) :
    later.db.total layout.symbols =
      workspace.db.total layout.symbols + (next \ model).ncard ∧ (next \ model).Finite := by
  have inSymbols : ∀ fact ∈ next \ model, fact.1 ∈ layout.symbols := by
    rintro fact ⟨known, unknown⟩
    by_contra outside
    exact unknown (elsewhere fact known outside)
  have showsAfter : later.db.Shows later.terms (model ∪ next \ model) := by
    rw [Set.union_sdiff_cancel grown]
    exact laterAtRest.db_shows
  have total := FactStore.total_add atRest.db_usable atRest.distinct atRest.db_shows
    laterAtRest.db_usable laterAtRest.distinct showsAfter layout.symbols_nodup inSymbols
  have finite := (FactStore.ncard_facts laterAtRest.db_usable laterAtRest.distinct
    laterAtRest.db_shows.within layout.symbols_nodup).1
  rw [laterAtRest.db_shows.model_eq] at finite
  refine ⟨?_, finite.subset fun fact new => ⟨new.1, inSymbols fact new⟩⟩
  rwa [sdiff_idem] at total

/-- Whatever the plans of a stratum derive belongs to the least model. -/
theorem sound_eager (prepared : context.Prepared schema layout meaning rules) (lower : start ⊆ model)
    {workspace : Workspace}
    (fits : ∀ plan ∈ context.rules, plan.Fits layout (.eager context.deltaRules) workspace) :
    ∀ plan ∈ context.rules, plan.Sound (eagerFrame layout meaning start model
      (leastModel meaning rules start start) lower (elsewhere_of_prepared prepared start))
        (.eager context.deltaRules) workspace := by
  intro plan member
  refine ⟨fits plan member, fun fact derived => leastModel_closed ?_⟩
  exact prepared.implements.planConsequences_subset (fun _ member => member)
    (fun _ => leastModel meaning rules start start) (leastModel meaning rules start start)
    (fun _ known => known) ⟨plan, member, derived⟩

/-- A pass adds what its rules derive, and counts what it adds. -/
theorem pass_leaves (prepared : context.Prepared schema layout meaning rules)
    (onTheWay : machine.OnTheWay schema meaning rules start model)
    (fits : ∀ plan ∈ context.rules,
      plan.Fits layout (.eager context.deltaRules) machine.workspace)
    {plans : List RulePlan} (fromRules : ∀ plan ∈ plans, plan ∈ context.rules) :
    LeavesWithRoom (context.pass plans) machine
      (fun added later => ∃ next,
        Machine.Passed schema layout meaning rules start model next added later machine ∧
          planConsequences meaning plans (fun _ => model) model ⊆ next ∧
            (added = 0 → next = model))
      fun _ later => later.workspace.ListsBetween model (leastModel meaning rules start start) := by
  have elsewhere := elsewhere_of_prepared prepared start
  have declared : ∀ symbol ∈ layout.symbols, symbol ∈ schema.declared := fun symbol member =>
    schema.derived_subset symbol (prepared.derived symbol member)
  let least := leastModel meaning rules start start
  let frame := eagerFrame layout meaning start model least onTheWay.lower elsewhere
  have frameFits : machine.workspace.Fits frame (.eager context.deltaRules) :=
    fits_eager onTheWay elsewhere declared context.deltaRules
  have sound := sound_eager prepared onTheWay.lower fits
  refine .get_bind ?_
  have ran : LeavesWithRoom (context.runRules (.eager context.deltaRules) plans) machine _ _ :=
    runRules_leaves prepared.computes onTheWay.atRest.idle frameFits
      (fun plan member => sound plan (List.mem_filter.mp member).1)
      fun plan member => sound plan (fromRules plan member)
  refine .bind (ran.mono (fun _ _ done => done) fun _ _ stopped => listsBetween_of_fits stopped.1)
    (fun _ => .get_bind fun _ => .pure) ?_
  rintro _ later ⟨idle, laterFits, grows, reported⟩
  refine .get_bind (.pure ?_)
  have laterAtRest := atRest_of_grows onTheWay.atRest.stores laterFits grows
  obtain ⟨next, lists, grown, upper⟩ := listsBetween_of_fits laterFits
  have nextEq := lists.showing.model_eq
  rw [nextEq] at laterAtRest
  have derived : planConsequences meaning plans (fun _ => model) model ⊆ next := by
    rintro fact ⟨plan, member, derived⟩
    obtain ⟨tuple, denotes, holds | holds⟩ := reported plan member fact derived
    · exact nextEq ▸ ⟨tuple, holds, denotes⟩
    · exact absurd holds (laterAtRest.collected _ _)
  -- The counter and the sizes of the relations tell the same number of new facts.
  obtain ⟨total, finite⟩ := total_of_atRest layout onTheWay.atRest.stores laterAtRest
    grown fun fact known outside => onTheWay.lower (elsewhere fact (upper known) outside)
  have counted := grows.counted
  have noneBefore := FactStore.total_eq_zero layout.symbols
    onTheWay.atRest.stores.nextDelta_usable.bounded onTheWay.atRest.stores.collected
  have noneAfter := FactStore.total_eq_zero layout.symbols
    laterAtRest.nextDelta_usable.bounded laterAtRest.collected
  have sameSymbols : frame.symbols = layout.symbols := rfl
  rw [sameSymbols] at counted
  refine ⟨next,
    { onTheWay := ⟨⟨idle, laterAtRest⟩, onTheWay.lower.trans grown, upper⟩
      grows := grown
      keeps := fun triggered => grows.keeps (.eager triggered)
      total := by omega
      derived := by omega }, derived, fun nothing => ?_⟩
  have empty : (next \ model).ncard = 0 := by omega
  exact Set.Subset.antisymm (Set.sdiff_eq_empty.mp ((Set.ncard_eq_zero finite).mp empty)) grown

/-- Sweeps go on until the delta rules derive nothing new. -/
theorem sweeps_leaves (prepared : context.Prepared schema layout meaning rules)
    (onTheWay : machine.OnTheWay schema meaning rules start model)
    (fits : ∀ plan ∈ context.rules,
      plan.Fits layout (.eager context.deltaRules) machine.workspace) (fuel : Nat) :
    LeavesWithRoom (context.sweeps fuel) machine
      (fun deltas later => ∃ next,
        Machine.Passed schema layout meaning rules start model next deltas.sum later machine ∧
          planConsequences meaning context.deltaRules (fun _ => next) next ⊆ next)
      fun _ later => later.workspace.ListsBetween model (leastModel meaning rules start start) := by
  induction fuel generalizing machine model with
  | zero => exact .throw ⟨model, onTheWay.atRest.stores.lists, fun _ known => known, onTheWay.upper⟩
  | succ fuel ih =>
      have fromRules : ∀ plan ∈ context.deltaRules, plan ∈ context.rules :=
        fun plan member => (List.mem_filter.mp member).1
      have first := pass_leaves prepared onTheWay fits fromRules
      refine first.bind (fun _ => .ite .pure (.bind (interns_sweeps fuel) fun _ => .pure)) ?_
      rintro added middle ⟨next, passed, derived, same⟩
      split
      · next nothing =>
          obtain rfl := same nothing
          subst nothing
          exact .pure ⟨_, passed, derived⟩
      · have others := ih passed.onTheWay fun plan member =>
          (fits plan member).keep (passed.keeps _)
        refine .bind (others.mono (fun _ _ done => done) fun _ _ between =>
          between.mono passed.grows) (fun _ => .pure) ?_
        rintro deltas later ⟨last, lastPassed, closed⟩
        refine .pure ⟨last, ?_, closed⟩
        have total := lastPassed.total
        have counted := lastPassed.derived
        rw [passed.total] at total
        rw [passed.derived] at counted
        exact
          { onTheWay := lastPassed.onTheWay
            grows := passed.grows.trans lastPassed.grows
            keeps := fun triggered => (lastPassed.keeps triggered).trans (passed.keeps triggered)
            total := by simpa [Nat.add_assoc] using total
            derived := by simpa [Nat.add_assoc] using counted }

/-- Eager evaluation computes the least model of a stratum and counts what it adds.  If it stops, it has
added some facts of the least model. -/
theorem evaluateEagerly_leaves (prepared : context.Prepared schema layout meaning rules)
    (outside : NegatesOutside rules) (atRest : machine.AtRest schema model ∅)
    (fits : ∀ plan ∈ context.rules,
      plan.Fits layout (.eager context.deltaRules) machine.workspace) (rank : Nat) :
    LeavesWithRoom (context.evaluateEagerly rank) machine
      (fun stats later => later.AtRest schema (leastModel meaning rules model model) ∅ ∧
        (∀ triggered, later.workspace.Keeps (.eager triggered) machine.workspace) ∧
        stats.rank = rank ∧
        later.workspace.db.total layout.symbols =
          machine.workspace.db.total layout.symbols + stats.derived)
      fun _ later => later.workspace.ListsBetween model (leastModel meaning rules model model) := by
  have restartKeeps := machine.restarted_keeps
  have ran : LeavesWithRoom (context.pass context.rules) machine.restarted _ _ :=
    pass_leaves prepared atRest.onTheWay_restarted
      (fun plan member => (fits plan member).keep (restartKeeps _)) fun _ member => member
  refine .modifyGet_bind ?_
  refine ran.bind (fun _ => .bind (interns_sweeps _) fun _ => .get_bind fun _ => .pure) ?_
  rintro added middle ⟨next, passed, derived, -⟩
  have swept := sweeps_leaves prepared passed.onTheWay
    (fun plan member => ((fits plan member).keep (restartKeeps _)).keep (passed.keeps _)) context.fuel
  refine .bind (swept.mono (fun _ _ done => done) fun _ _ between => between.mono passed.grows)
    (fun _ => .get_bind fun _ => .pure) ?_
  rintro deltas later ⟨last, lastPassed, closed⟩
  refine .get_bind (.pure ⟨?_, fun triggered => ?_, rfl, ?_⟩)
  · have onTheWay := lastPassed.onTheWay
    have lastClosed : consequences meaning rules last last ⊆ last :=
      prepared.implements.closed onTheWay.lower
        (fun fact known => elsewhere_of_prepared prepared model fact (onTheWay.upper known))
        (derived.trans lastPassed.grows) closed
    rw [← eq_leastModel_of_closed outside onTheWay.lower onTheWay.upper lastClosed]
    exact onTheWay.atRest
  · exact ((lastPassed.keeps triggered).trans (passed.keeps triggered)).trans
      (restartKeeps triggered)
  · have total := lastPassed.total
    have counted := lastPassed.derived
    rw [passed.total] at total
    rw [passed.derived] at counted
    have none : machine.restarted.workspace.derived = 0 := rfl
    have same : machine.restarted.workspace.db = machine.workspace.db := rfl
    rw [same] at total
    simp only
    omega

end FixpointContext

end Datalog
