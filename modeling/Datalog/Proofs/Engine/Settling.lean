import Datalog.Proofs.Engine.PerfectModel
import Datalog.Proofs.Evaluation.Triggers

/-!
# Eager evaluation settles in its first pass

The tasks that new tuples trigger leave nothing to the sweeps: the first pass of a stratum reaches the
perfect model of the stratum, and the one sweep that follows only finds that nothing is missing.
-/

namespace Datalog

namespace Evaluation

variable {meaning : Interpretation} {program : Program} {functions : Registry} {config : Config}
  {schedule : Schedule} {fuel : Nat} {before : List Stratum} {stratum : Stratum}
  {start later : Evaluation}

/-- What a stratum has done that settled in its first pass: the relations were complete after it, it
added everything that was derived, and one sweep has added nothing. -/
structure SettlesAtOnce (model : Model) (context : FixpointContext) (start : Evaluation)
    (stats : StratumStats) : Prop where
  first : ∃ machine : Machine, context.firstPass start.machine = .ok stats.derived machine ∧
    { start with machine }.Displays model
  sweeps_eq : stats.sweeps = 1
  deltas_eq : stats.roundDeltas = [stats.derived, 0]

/-- A stratum that is evaluated eagerly settles in its first pass. -/
theorem Awaits.settlesAtOnce {stats : StratumStats}
    (awaits : Awaits program functions config schedule fuel before stratum start)
    (built : program.Built) (computes : functions.Computes meaning) (bounded : config.Bounded)
    (avoids : ∀ rule ∈ program.rules, DeltaRule.AvoidsIsolated rule.occurrences)
    (eager : config.eager = true) (ran : runStratum fuel stratum start = .ok stats later)
    (room : later.terms.HasRoom) :
    SettlesAtOnce (program.perfectModel meaning ((before ++ [stratum]).map Stratum.symbols))
      (start.fixpointContext fuel stratum) start stats := by
  have startRoom := ((interns_runStratum fuel stratum start).of_ok ran).hasRoom room
  obtain ⟨resources, evaluation, faithful, member, reached⟩ :=
    awaits.exists_reached built computes bounded (fun _ => avoids) startRoom
  obtain ⟨layout, -, prepared, fits⟩ := faithful.exists_prepared member reached fuel
  have outside := faithful.negatesOutside member
  have suits : Strategy.Suits config (.eager (start.fixpointContext fuel stratum).deltaRules) := eager
  have ranEagerly := evaluate_of_runStratum ran
  rw [reached.config_eq, eager, if_pos rfl] at ranEagerly
  obtain ⟨sweepsEq, deltasEq⟩ := (FixpointContext.evaluateEagerly_settles prepared outside
    reached.atRest (fits _ suits) stratum.rank).of_ok ranEagerly room
  refine ⟨?_, sweepsEq, deltasEq⟩
  rw [FixpointContext.evaluateEagerly_eq] at ranEagerly
  obtain ⟨added, machine, ranFirst, ranOthers⟩ := bind_eq_ok.mp ranEagerly
  obtain ⟨others, last, ranSweeps, ranEnd⟩ := bind_eq_ok.mp ranOthers
  obtain ⟨_, _, got, ended⟩ := bind_eq_ok.mp ranEnd
  cases got
  cases ended
  have machineRoom := ((FixpointContext.interns_sweeps _ machine).of_ok ranSweeps).hasRoom room
  obtain ⟨onTheWay, -, -⟩ := (FixpointContext.firstPass_leaves prepared outside reached.atRest
    (fits _ suits)).of_ok ranFirst machineRoom
  rw [(List.cons.inj deltasEq).1] at ranFirst
  refine ⟨machine, ranFirst, ?_⟩
  rw [List.map_append, List.map_singleton, Program.perfectModel_append]
  exact displays_of_atRest onTheWay.atRest

/-- Eagerly, every stratum reaches its part of the perfect model in the first pass, so that one sweep is
run, which adds nothing. -/
theorem eager_settles_at_once {evaluation : Evaluation} {stats : List StratumStats}
    (built : program.Built) (computes : functions.Computes meaning) (bounded : config.Bounded)
    (avoids : ∀ rule ∈ program.rules, DeltaRule.AvoidsIsolated rule.occurrences)
    (eager : config.eager = true)
    (accepted : ofProgram program functions config schedule = .ok evaluation)
    (ran : run fuel evaluation = .ok stats later) (room : later.terms.HasRoom) :
    stats.length = program.stratify.length ∧
      (∀ stratumStats ∈ stats, stratumStats.sweeps = 1 ∧
        stratumStats.roundDeltas = [stratumStats.derived, 0]) ∧
      ∀ before stratum after, program.stratify = before ++ stratum :: after →
        ∃ start stratumStats, Awaits program functions config schedule fuel before stratum start ∧
          stats[before.length]? = some stratumStats ∧
            SettlesAtOnce (program.perfectModel meaning ((before ++ [stratum]).map Stratum.symbols))
              (start.fixpointContext fuel stratum) start stratumStats := by
  have each : ∀ before stratum after, program.stratify = before ++ stratum :: after →
      ∃ start stratumStats, Awaits program functions config schedule fuel before stratum start ∧
        stats[before.length]? = some stratumStats ∧
          SettlesAtOnce (program.perfectModel meaning ((before ++ [stratum]).map Stratum.symbols))
            (start.fixpointContext fuel stratum) start stratumStats := by
    intro before stratum after split
    obtain ⟨start, next, stratumStats, awaits, ranStratum, found, grown⟩ :=
      exists_awaits accepted ran split
    exact ⟨start, stratumStats, awaits, found, awaits.settlesAtOnce built computes bounded avoids eager
      ranStratum (grown.hasRoom room)⟩
  obtain ⟨-, -, counts⟩ :=
    displays_of_ofProgram built computes bounded (fun _ => avoids) accepted ran room
  refine ⟨counts.length_eq, fun stratumStats member => ?_, each⟩
  obtain ⟨position, inside, rfl⟩ := List.mem_iff_getElem.mp member
  have within : position < program.stratify.length := counts.length_eq ▸ inside
  obtain ⟨start, other, -, found, settles⟩ := each _ _ _
    ((List.take_append_drop position program.stratify).symm.trans
      (by rw [List.drop_eq_getElem_cons within]))
  rw [List.length_take_of_le (Nat.le_of_lt within), List.getElem?_eq_getElem inside] at found
  obtain rfl := Option.some.inj found
  exact ⟨settles.sweeps_eq, settles.deltas_eq⟩

theorem eager_settles_at_once_sample :
    ∃ evaluation stats later,
      ofProgram Sample.program Sample.functions { eager := true } .firstInFirstOut =
          .ok evaluation ∧
        run 20 evaluation = .ok stats later ∧ stats.length = 3 ∧
          ∀ stratumStats ∈ stats, stratumStats.sweeps = 1 ∧
            stratumStats.roundDeltas = [stratumStats.derived, 0] := by
  have ended : endsWell 20
      (ofProgram Sample.program Sample.functions { eager := true } .firstInFirstOut) = true := by
    decide +kernel
  obtain ⟨evaluation, stats, later, accepted, ran, room⟩ := exists_of_endsWell ended
  have strata : Sample.program.stratify.length = 3 := by decide +kernel
  obtain ⟨lengthEq, settled, -⟩ := eager_settles_at_once Sample.built Sample.computes (by decide)
    Sample.avoids rfl accepted ran room
  exact ⟨evaluation, stats, later, accepted, ran, lengthEq.trans strata, settled⟩

end Evaluation

end Datalog
