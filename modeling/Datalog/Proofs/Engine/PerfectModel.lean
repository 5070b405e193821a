import Datalog.Proofs.Engine.Run

/-!
# Evaluation computes the perfect model

An evaluation that succeeds lists exactly the perfect model of its program, in rounds and eagerly,
whatever the settings and the order of the tasks are.  The strata need not be those that the program
is given by itself: any strata that respect the dependencies lead to the same facts.
-/

namespace Datalog

namespace Sample

theorem avoids : ∀ rule ∈ program.rules, DeltaRule.AvoidsIsolated rule.occurrences := by
  have plain : ∀ rule ∈ program.rules, ∀ name ∈ rule.occurrences, name.toList.head? ≠ some '$' := by
    decide +kernel
  exact fun rule member => DeltaRule.avoidsIsolated_of_head (plain rule member)

/-- Strata of the sample that evaluate the paths and the wrapped nodes together. -/
def coarseStrata : List Stratum := [⟨0, [path, wrapped], false⟩, ⟨1, [apart], false⟩]

theorem admits_coarseStrata : program.Admits coarseStrata where
  grouping :=
    { covers := by decide +kernel
      disjoint := by
        refine List.pairwise_pair.mpr fun symbol inFirst inSecond => ?_
        revert symbol
        decide +kernel
      respects := by
        intro before group after split
        have checked : ∀ rule ∈ program.rules, rule.head.symbol ∈ group →
            ∀ literal ∈ rule.body, ∀ atom ∈ literal.atom?, atom.symbol ∈ program.ruleSymbols →
              atom.symbol ∈ before.flatten ∨ atom.negated = false ∧ atom.symbol ∈ group := by
          match before, split with
          | [], split =>
              obtain ⟨rfl, -⟩ := List.cons.inj split
              decide +kernel
          | [first], split =>
              obtain rfl : [path, wrapped] = first := (List.cons.inj split).1
              obtain ⟨rfl, -⟩ := List.cons.inj (List.cons.inj split).2
              decide +kernel
          | _ :: _ :: _, split => simp [coarseStrata] at split
        intro rule inProgram inGroup atom inBody derived
        refine checked rule inProgram inGroup _ inBody atom rfl (Program.mem_ruleSymbols.mpr ⟨?_, derived⟩)
        exact (built.wellFormed.bodies rule inProgram atom inBody).declared }
  nodup := by decide +kernel
  derived := by decide +kernel
  unflagged := by decide +kernel

end Sample

namespace Evaluation

/-- Whether an evaluation is accepted and can be run to its end with room left. -/
def endsWell (fuel : Nat) : Except RunError Evaluation → Bool
  | .error _ => false
  | .ok evaluation =>
      match run fuel evaluation with
      | .ok _ later => decide later.terms.HasRoom
      | .error _ _ => false

theorem exists_of_endsWell {outcome : Except RunError Evaluation} {fuel : Nat}
    (ended : endsWell fuel outcome = true) :
    ∃ evaluation stats later, outcome = .ok evaluation ∧ run fuel evaluation = .ok stats later ∧
      later.terms.HasRoom := by
  unfold endsWell at ended
  split at ended
  · simp at ended
  · next evaluation =>
      split at ended
      · next stats later ran => exact ⟨evaluation, stats, later, rfl, ran, by simpa using ended⟩
      · simp at ended

variable {meaning : Interpretation} {program : Program} {functions : Registry}

/-- An evaluation that was set up for strata in which the rules can be evaluated is faithful. -/
theorem exists_faithful {strata : List Stratum} {config : Config} {schedule : Schedule}
    {evaluation : Evaluation} (built : program.Built) (layers : program.Layers strata)
    (computes : functions.Computes meaning) (bounded : config.Bounded)
    (avoids : config.eager = true →
      ∀ rule ∈ program.rules, DeltaRule.AvoidsIsolated rule.occurrences)
    (accepted : setup program strata functions config schedule = .ok evaluation) :
    ∃ resources, Faithful meaning program strata functions config schedule resources evaluation := by
  obtain ⟨resources, setUp⟩ := exists_setUp accepted
  exact ⟨resources, setUp, built.wellFormed, layers, computes, bounded, avoids⟩

theorem interns_run (fuel : Nat) : Interns (run fuel) := by
  refine .get_bind fun evaluation => ?_
  cases evaluation.stats with
  | some stats => exact .pure
  | none =>
      exact .bind (interns_runStrata fuel _) fun _ => .bind (.modify fun _ => rfl) fun _ => .pure

/-- A faithful evaluation that has been run lists the perfect model. -/
theorem Faithful.displays_of_run {strata : List Stratum} {config : Config} {schedule : Schedule}
    {resources : Planner.Resources} {evaluation later : Evaluation} {fuel : Nat}
    {stats : List StratumStats}
    (faithful : Faithful meaning program strata functions config schedule resources evaluation)
    (disjoint : (strata.map (·.symbols)).Pairwise List.Disjoint)
    (ran : run fuel evaluation = .ok stats later) (room : later.terms.HasRoom) :
    later.Displays (program.perfectModel meaning (strata.map (·.symbols))) ∧
      List.Forall₂ (Counts evaluation later) stats strata := by
  have grown := (interns_run fuel evaluation).of_ok ran
  obtain ⟨reached, counts⟩ :=
    (faithful.run_leaves disjoint (grown.hasRoom room) fuel).of_ok ran room
  exact ⟨reached.displays, counts⟩

theorem Faithful.isStratification_stratify {config : Config} {schedule : Schedule}
    {resources : Planner.Resources} {evaluation : Evaluation}
    (faithful : Faithful meaning program program.stratify functions config schedule resources
      evaluation) : program.IsStratification (program.stratify.map (·.symbols)) :=
  Program.isStratification_stratify faithful.wellFormed fun stratum member => by
    rw [faithful.layers.negation stratum member]
    exact faithful.negatesWithin_eq_false member

/-! ## The strata of the program -/

/-- An evaluation of a program with its own strata lists the perfect model of the program once it has
been run. -/
theorem displays_of_ofProgram {config : Config} {schedule : Schedule}
    {evaluation later : Evaluation} {fuel : Nat} {stats : List StratumStats}
    (built : program.Built) (computes : functions.Computes meaning) (bounded : config.Bounded)
    (avoids : config.eager = true →
      ∀ rule ∈ program.rules, DeltaRule.AvoidsIsolated rule.occurrences)
    (accepted : ofProgram program functions config schedule = .ok evaluation)
    (ran : run fuel evaluation = .ok stats later) (room : later.terms.HasRoom) :
    program.IsStratification (program.stratify.map (·.symbols)) ∧
      later.Displays (program.perfectModel meaning (program.stratify.map (·.symbols))) ∧
        List.Forall₂ (Counts evaluation later) stats program.stratify := by
  have layers := Program.layers_stratify built.wellFormed
  obtain ⟨resources, faithful⟩ :=
    exists_faithful built layers computes bounded avoids accepted
  have stratified := faithful.isStratification_stratify
  exact ⟨stratified, faithful.displays_of_run stratified.disjoint ran room⟩

/-- An evaluation of a program has evaluated the strata before a given one. -/
structure Awaits (program : Program) (functions : Registry) (config : Config) (schedule : Schedule)
    (fuel : Nat) (before : List Stratum) (stratum : Stratum) (start : Evaluation) : Prop where
  ran : ∃ evaluation statsBefore, ofProgram program functions config schedule = .ok evaluation ∧
    runStrata fuel before evaluation = .ok statsBefore start
  next : ∃ after, program.stratify = before ++ stratum :: after

theorem runStrata_append_eq_ok {before after : List Stratum} {fuel : Nat}
    {start later : Evaluation} {stats : List StratumStats}
    (ran : runStrata fuel (before ++ after) start = .ok stats later) :
    ∃ statsBefore statsAfter middle, stats = statsBefore ++ statsAfter ∧
      statsBefore.length = before.length ∧ runStrata fuel before start = .ok statsBefore middle ∧
        runStrata fuel after middle = .ok statsAfter later := by
  induction before generalizing start stats with
  | nil => exact ⟨[], stats, start, rfl, rfl, rfl, ran⟩
  | cons stratum before ih =>
      obtain ⟨first, next, ranFirst, ran⟩ := bind_eq_ok.mp ran
      obtain ⟨others, last, ran, ended⟩ := bind_eq_ok.mp ran
      cases ended
      obtain ⟨statsBefore, statsAfter, middle, rfl, lengthEq, ranBefore, ranAfter⟩ := ih ran
      refine ⟨first :: statsBefore, statsAfter, middle, rfl, by simp [lengthEq], ?_, ranAfter⟩
      exact bind_eq_ok.mpr ⟨first, next, ranFirst, bind_eq_ok.mpr ⟨_, _, ranBefore, rfl⟩⟩

theorem runStrata_of_run {strata : List Stratum} {config : Config} {schedule : Schedule}
    {evaluation later : Evaluation} {fuel : Nat} {stats : List StratumStats}
    (accepted : setup program strata functions config schedule = .ok evaluation)
    (ran : run fuel evaluation = .ok stats later) :
    ∃ last, runStrata fuel strata evaluation = .ok stats last ∧
      later = { last with stats := some stats } := by
  obtain ⟨resources, setUp⟩ := exists_setUp accepted
  obtain ⟨_, _, got, ran⟩ := bind_eq_ok.mp ran
  cases got
  rw [setUp.stats_eq, setUp.strata_eq] at ran
  obtain ⟨_, last, ranStrata, ran⟩ := bind_eq_ok.mp ran
  obtain ⟨_, _, stored, ended⟩ := bind_eq_ok.mp ran
  cases stored
  cases ended
  exact ⟨last, ranStrata, rfl⟩

/-- A run comes to each stratum once the strata before it have been evaluated. -/
theorem exists_awaits {config : Config} {schedule : Schedule} {fuel : Nat}
    {before after : List Stratum} {stratum : Stratum} {evaluation later : Evaluation}
    {stats : List StratumStats}
    (accepted : ofProgram program functions config schedule = .ok evaluation)
    (ran : run fuel evaluation = .ok stats later)
    (split : program.stratify = before ++ stratum :: after) :
    ∃ start next stratumStats, Awaits program functions config schedule fuel before stratum start ∧
      runStratum fuel stratum start = .ok stratumStats next ∧
        stats[before.length]? = some stratumStats ∧ later.terms.Extends next.terms := by
  obtain ⟨last, ranStrata, rfl⟩ := runStrata_of_run accepted ran
  rw [split] at ranStrata
  obtain ⟨statsBefore, statsAfter, start, rfl, lengthEq, ranBefore, ranAfter⟩ :=
    runStrata_append_eq_ok ranStrata
  obtain ⟨first, next, ranFirst, ranAfter⟩ := bind_eq_ok.mp ranAfter
  obtain ⟨others, _, ranOthers, ended⟩ := bind_eq_ok.mp ranAfter
  cases ended
  have grown : last.terms.Extends next.terms := (interns_runStrata fuel after next).of_ok ranOthers
  refine ⟨start, next, first, ⟨⟨evaluation, statsBefore, accepted, ranBefore⟩, after, split⟩,
    ranFirst, ?_, grown⟩
  rw [← lengthEq]
  simp

/-- Before a stratum is evaluated, the perfect model of the strata before it has been reached. -/
theorem Awaits.exists_reached {config : Config} {schedule : Schedule} {fuel : Nat}
    {before : List Stratum} {stratum : Stratum} {start : Evaluation}
    (awaits : Awaits program functions config schedule fuel before stratum start)
    (built : program.Built) (computes : functions.Computes meaning) (bounded : config.Bounded)
    (avoids : config.eager = true →
      ∀ rule ∈ program.rules, DeltaRule.AvoidsIsolated rule.occurrences)
    (room : start.terms.HasRoom) :
    ∃ resources evaluation,
      Faithful meaning program program.stratify functions config schedule resources evaluation ∧
        stratum ∈ program.stratify ∧
          Reached program config schedule resources evaluation
            (program.perfectModel meaning (before.map (·.symbols))) start := by
  obtain ⟨evaluation, statsBefore, accepted, ran⟩ := awaits.ran
  obtain ⟨after, split⟩ := awaits.next
  obtain ⟨resources, faithful⟩ := exists_faithful built (Program.layers_stratify built.wellFormed)
    computes bounded avoids accepted
  have startRoom := ((interns_runStrata fuel before evaluation).of_ok ran).hasRoom room
  have startReached : Reached program config schedule resources evaluation
      (program.perfectModel meaning (([] : List Stratum).map (·.symbols))) evaluation :=
    faithful.reached_start startRoom
  have disjoint := faithful.isStratification_stratify.disjoint
  rw [split, List.map_append, List.pairwise_append] at disjoint
  have reached := faithful.runStrata_leaves
    (fun other member => split ▸ List.mem_append_left _ member) disjoint.1 startReached fuel
  exact ⟨resources, evaluation, faithful, by simp [split], (reached.of_ok ran room).1⟩

/-- Evaluation in rounds computes the perfect model: the base facts closed, stratum by stratum, under
all rules. -/
theorem rounds_compute_perfectModel {config : Config} {schedule : Schedule}
    {evaluation later : Evaluation} {fuel : Nat} {stats : List StratumStats}
    (built : program.Built) (computes : functions.Computes meaning)
    (inRounds : config.eager = false) (bounded : config.Bounded)
    (accepted : ofProgram program functions config schedule = .ok evaluation)
    (ran : run fuel evaluation = .ok stats later) (room : later.terms.HasRoom) :
    program.IsStratification (program.stratify.map (·.symbols)) ∧
      later.Displays (program.perfectModel meaning (program.stratify.map (·.symbols))) := by
  have avoids : config.eager = true →
      ∀ rule ∈ program.rules, DeltaRule.AvoidsIsolated rule.occurrences := by
    intro eager
    simp [inRounds] at eager
  obtain ⟨stratified, displays, -⟩ :=
    displays_of_ofProgram built computes bounded avoids accepted ran room
  exact ⟨stratified, displays⟩

theorem rounds_compute_perfectModel_sample :
    ∃ evaluation stats later,
      ofProgram Sample.program Sample.functions {} .firstInFirstOut = .ok evaluation ∧
        run 20 evaluation = .ok stats later ∧
          later.Displays (Sample.program.perfectModel Sample.meaning
            (Sample.program.stratify.map (·.symbols))) := by
  have ended : endsWell 20 (ofProgram Sample.program Sample.functions {} .firstInFirstOut) = true := by
    decide +kernel
  obtain ⟨evaluation, stats, later, accepted, ran, room⟩ := exists_of_endsWell ended
  exact ⟨evaluation, stats, later, accepted, ran,
    (rounds_compute_perfectModel Sample.built Sample.computes rfl (by decide) accepted ran room).2⟩

/-- Evaluation in either mode computes the perfect model, and so an eager evaluation lists what one in
rounds lists; the statistics tell by how many tuples the relations of each stratum have grown. -/
theorem either_mode_computes_perfectModel {config : Config} {schedule : Schedule}
    {evaluation later : Evaluation} {fuel : Nat} {stats : List StratumStats}
    (built : program.Built) (computes : functions.Computes meaning) (bounded : config.Bounded)
    (avoids : ∀ rule ∈ program.rules, DeltaRule.AvoidsIsolated rule.occurrences)
    (accepted : ofProgram program functions config schedule = .ok evaluation)
    (ran : run fuel evaluation = .ok stats later) (room : later.terms.HasRoom) :
    later.Displays (program.perfectModel meaning (program.stratify.map (·.symbols))) ∧
      List.Forall₂ (Counts evaluation later) stats program.stratify ∧
      ∀ (otherConfig : Config) (otherSchedule : Schedule) (other last : Evaluation)
        (otherFuel : Nat) (otherStats : List StratumStats), otherConfig.Bounded →
          ofProgram program functions otherConfig otherSchedule = .ok other →
            run otherFuel other = .ok otherStats last → last.terms.HasRoom →
              ∀ symbol, later.contents symbol = last.contents symbol := by
  obtain ⟨-, displays, counts⟩ :=
    displays_of_ofProgram built computes bounded (fun _ => avoids) accepted ran room
  refine ⟨displays, counts, ?_⟩
  intro otherConfig otherSchedule other last otherFuel otherStats otherBounded otherAccepted otherRan
    otherRoom symbol
  obtain ⟨-, otherDisplays, -⟩ := displays_of_ofProgram built computes otherBounded
    (fun _ => avoids) otherAccepted otherRan otherRoom
  rw [displays.contents_eq, otherDisplays.contents_eq]

theorem either_mode_computes_perfectModel_sample :
    ∃ evaluation stats later,
      ofProgram Sample.program Sample.functions { eager := true } .firstInFirstOut =
          .ok evaluation ∧
        run 20 evaluation = .ok stats later ∧
          later.Displays (Sample.program.perfectModel Sample.meaning
            (Sample.program.stratify.map (·.symbols))) := by
  have ended : endsWell 20
      (ofProgram Sample.program Sample.functions { eager := true } .firstInFirstOut) = true := by
    decide +kernel
  obtain ⟨evaluation, stats, later, accepted, ran, room⟩ := exists_of_endsWell ended
  exact ⟨evaluation, stats, later, accepted, ran,
    (either_mode_computes_perfectModel Sample.built Sample.computes (by decide) Sample.avoids accepted
      ran room).1⟩

/-! ## Other strata -/

/-- Two evaluations of a program display the perfect model, and list the same facts, whatever strata they
use, as long as these respect the dependencies. -/
theorem contents_eq_of_admits {strata strata' : List Stratum} {config config' : Config}
    {schedule schedule' : Schedule} {evaluation evaluation' later later' : Evaluation}
    {fuel fuel' : Nat} {stats stats' : List StratumStats} (built : program.Built)
    (computes : functions.Computes meaning)
    (avoids : ∀ rule ∈ program.rules, DeltaRule.AvoidsIsolated rule.occurrences)
    (admits : program.Admits strata) (admits' : program.Admits strata') (bounded : config.Bounded)
    (bounded' : config'.Bounded)
    (accepted : setup program strata functions config schedule = .ok evaluation)
    (accepted' : setup program strata' functions config' schedule' = .ok evaluation')
    (ran : run fuel evaluation = .ok stats later) (ran' : run fuel' evaluation' = .ok stats' later')
    (room : later.terms.HasRoom) (room' : later'.terms.HasRoom) :
    (later.Displays (program.perfectModel meaning (strata.map (·.symbols))) ∧
        later'.Displays (program.perfectModel meaning (strata.map (·.symbols)))) ∧
      ∀ symbol, later.contents symbol = later'.contents symbol := by
  obtain ⟨resources, faithful⟩ :=
    exists_faithful built admits.layers computes bounded (fun _ => avoids) accepted
  obtain ⟨resources', faithful'⟩ :=
    exists_faithful built admits'.layers computes bounded' (fun _ => avoids) accepted'
  have displays := (faithful.displays_of_run admits.grouping.disjoint ran room).1
  have displays' := (faithful'.displays_of_run admits'.grouping.disjoint ran' room').1
  rw [← admits.grouping.perfectModel_eq admits'.grouping] at displays'
  refine ⟨⟨displays, displays'⟩, fun symbol => ?_⟩
  rw [displays.contents_eq, displays'.contents_eq]

theorem contents_eq_of_admits_sample :
    ∃ evaluation evaluation' stats stats' later later',
      setup Sample.program Sample.coarseStrata Sample.functions {} .firstInFirstOut =
          .ok evaluation ∧
        setup Sample.program Sample.program.stratify Sample.functions { eager := true }
            .firstInFirstOut = .ok evaluation' ∧
          run 20 evaluation = .ok stats later ∧ run 20 evaluation' = .ok stats' later' ∧
            (later.Displays (Sample.program.perfectModel Sample.meaning
                (Sample.coarseStrata.map (·.symbols))) ∧
              later'.Displays (Sample.program.perfectModel Sample.meaning
                (Sample.coarseStrata.map (·.symbols)))) ∧
              ∀ symbol, later.contents symbol = later'.contents symbol := by
  have ended : endsWell 20
      (setup Sample.program Sample.coarseStrata Sample.functions {} .firstInFirstOut) = true := by
    decide +kernel
  have ended' : endsWell 20 (setup Sample.program Sample.program.stratify Sample.functions
      { eager := true } .firstInFirstOut) = true := by
    decide +kernel
  obtain ⟨evaluation, stats, later, accepted, ran, room⟩ := exists_of_endsWell ended
  obtain ⟨evaluation', stats', later', accepted', ran', room'⟩ := exists_of_endsWell ended'
  have admits : Sample.program.Admits Sample.program.stratify := by
    have layers := Program.layers_stratify Sample.built.wellFormed
    have unflagged : ∀ stratum ∈ Sample.program.stratify, stratum.recursiveNegation = false := by
      decide +kernel
    exact ⟨Program.isStratification_stratify Sample.built.wellFormed unflagged, layers.nodup,
      layers.derived, unflagged⟩
  exact ⟨evaluation, evaluation', stats, stats', later, later', accepted, accepted', ran, ran',
    contents_eq_of_admits Sample.built Sample.computes Sample.avoids Sample.admits_coarseStrata
      admits (by decide) (by decide) accepted accepted' ran ran' room room'⟩

end Evaluation

end Datalog
