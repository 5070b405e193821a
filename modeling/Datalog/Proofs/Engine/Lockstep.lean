import Datalog.Proofs.Engine.PerfectModel

/-!
# Rounds in lockstep with naive evaluation

After every round of a stratum the main store lists what as many steps of naive evaluation derive from
the facts that were listed at the start of the stratum.  The numbers of new tuples are those of naive
evaluation as well, so that they depend on the program alone.
-/

namespace Datalog

namespace FixpointContext

variable {context : FixpointContext} {machine later : Machine}

end FixpointContext

namespace Evaluation

variable {meaning : Interpretation} {program : Program} {functions : Registry}

variable {config : Config} {schedule : Schedule} {fuel : Nat} {before : List Stratum}
  {stratum : Stratum} {start later : Evaluation} {stats : StratumStats}

theorem Awaits.firstRounds_leaves
    (awaits : Awaits program functions config schedule fuel before stratum start)
    (built : program.Built) (computes : functions.Computes meaning) (inRounds : config.eager = false)
    (bounded : config.Bounded) (room : start.terms.HasRoom) :
    start.config.eager = false ∧ ∃ layout : Layout, layout.symbols = stratum.symbols ∧
      ∀ count, LeavesWithRoom ((start.fixpointContext fuel stratum).firstRounds count) start.machine
        (fun deltas machine => deltas.length = count ∧
          Machine.Follows program.schema layout meaning (program.rulesOf stratum.symbols)
            (program.perfectModel meaning (before.map Stratum.symbols)) deltas machine start.machine)
        fun _ _ => True := by
  have avoids : config.eager = true →
      ∀ rule ∈ program.rules, DeltaRule.AvoidsIsolated rule.occurrences := by
    intro eager
    simp [inRounds] at eager
  obtain ⟨resources, evaluation, faithful, member, reached⟩ :=
    awaits.exists_reached built computes bounded avoids room
  obtain ⟨layout, symbolsEq, prepared, fits⟩ := faithful.exists_prepared member reached fuel
  have suits : Strategy.Suits config .rounds := by simpa [Strategy.Suits] using inRounds
  refine ⟨by rw [reached.config_eq, inRounds], layout, symbolsEq, ?_⟩
  exact FixpointContext.firstRounds_leaves prepared reached.atRest (fits .rounds suits)

end Evaluation

end Datalog
