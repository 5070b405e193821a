import Datalog.Proofs.Engine.Lockstep

/-!
# Failures

When a task fails, the other tasks of the pass still run, and what they store stays.  Even so the
relations list nothing that is wrong: the strata before hold their part of the perfect model, those after
it only their base facts, and the stratum itself what its last completed round has left or, if it is
evaluated eagerly, facts that can be derived.
-/

namespace Datalog

namespace Sample

/-- A function that always fails. -/
def refuse : Function where
  apply store _ := (.error (.message "refused"), store)
  extends_apply store _ := .refl store

def failingFunctions : Registry where
  entries := [("wrap", .native refuse)]

/-- A function that returns nothing computes anything. -/
theorem failingFunctions_computes : failingFunctions.Computes meaning := by
  intro name registered found
  by_cases isWrap : "wrap" = name
  · subst isWrap
    obtain rfl : Registered.native refuse = registered := by
      simpa [failingFunctions, Registry.find?] using found
    exact fun store args values distinct denotes => ⟨distinct, fun id outcome => by cases outcome⟩
  · simp [failingFunctions, Registry.find?, isWrap] at found

end Sample

namespace Evaluation

variable {meaning : Interpretation} {program : Program} {functions : Registry} {config : Config}
  {schedule : Schedule} {fuel : Nat} {before : List Stratum} {stratum : Stratum}
  {start later : Evaluation}

/-! ## Where a run stops -/

theorem ofRunM_eq_error {α : Type} {step : RunM α} {stop : Stop}
    (stopped : ofRunM step start = .error stop later) :
    step start.machine = .error stop later.machine ∧
      later = { start with machine := later.machine } := by
  unfold ofRunM at stopped
  split at stopped
  · cases stopped
  · next outcome =>
      cases stopped
      exact ⟨outcome, rfl⟩

theorem runStratum_eq_error {stop : Stop}
    (stopped : runStratum fuel stratum start = .error stop later) :
    (if start.config.eager then
        (start.fixpointContext fuel stratum).evaluateEagerly stratum.rank
      else
        (start.fixpointContext fuel stratum).evaluateRounds stratum.rank) start.machine =
      .error stop later.machine ∧ later = { start with machine := later.machine } := by
  rcases bind_eq_error.mp stopped with stopped | ⟨_, _, got, stopped⟩
  · cases stopped
  · cases got
    rcases bind_eq_error.mp stopped with stopped | ⟨_, _, _, stopped⟩
    · exact ofRunM_eq_error stopped
    · rcases bind_eq_error.mp stopped with stopped | ⟨_, _, _, stopped⟩
      · cases stopped
      · cases stopped

theorem exists_runStratum_eq_error {strata : List Stratum} {stop : Stop}
    (stopped : runStrata fuel strata start = .error stop later) :
    ∃ before stratum after statsBefore middle, strata = before ++ stratum :: after ∧
      runStrata fuel before start = .ok statsBefore middle ∧
        runStratum fuel stratum middle = .error stop later := by
  induction strata generalizing start with
  | nil => cases stopped
  | cons first strata ih =>
      rcases bind_eq_error.mp stopped with stopped | ⟨stats, next, ran, stopped⟩
      · exact ⟨[], first, strata, [], start, rfl, rfl, stopped⟩
      · rcases bind_eq_error.mp stopped with stopped | ⟨_, _, _, ended⟩
        · obtain ⟨before, stratum, after, statsBefore, middle, rfl, ranBefore, stoppedAt⟩ :=
            ih stopped
          refine ⟨first :: before, stratum, after, stats :: statsBefore, middle, rfl, ?_, stoppedAt⟩
          exact bind_eq_ok.mpr ⟨stats, next, ran, bind_eq_ok.mpr ⟨_, _, ranBefore, rfl⟩⟩
        · cases ended

/-- A run stops in a stratum whose predecessors have been evaluated. -/
theorem exists_awaits_of_run_eq_error {evaluation : Evaluation} {stop : Stop}
    (accepted : ofProgram program functions config schedule = .ok evaluation)
    (stopped : run fuel evaluation = .error stop later) :
    ∃ before stratum start, Awaits program functions config schedule fuel before stratum start ∧
      runStratum fuel stratum start = .error stop later := by
  obtain ⟨resources, setUp⟩ := exists_setUp accepted
  rcases bind_eq_error.mp stopped with stopped | ⟨_, _, got, stopped⟩
  · cases stopped
  · cases got
    rw [setUp.stats_eq, setUp.strata_eq] at stopped
    rcases bind_eq_error.mp stopped with stopped | ⟨_, _, _, stopped⟩
    · obtain ⟨before, stratum, after, statsBefore, start, split, ranBefore, stoppedAt⟩ :=
        exists_runStratum_eq_error stopped
      exact ⟨before, stratum, start, ⟨⟨evaluation, statsBefore, accepted, ranBefore⟩, after, split⟩,
        stoppedAt⟩
    · rcases bind_eq_error.mp stopped with stopped | ⟨_, _, _, stopped⟩
      · cases stopped
      · cases stopped

/-! ## What is there -/

/-- What a model holds outside the stratum that is under way: the perfect model of the strata before,
and the base facts of all other relations. -/
structure Partial (meaning : Interpretation) (program : Program) (before : List Stratum)
    (stratum : Stratum) (model : Model) : Prop where
  base : program.baseModel meaning ⊆ model
  earlier : ∀ fact : GroundFact, fact.1 ∈ (before.map Stratum.symbols).flatten →
    (fact ∈ model ↔ fact ∈ program.perfectModel meaning (program.stratify.map Stratum.symbols))
  elsewhere : ∀ fact : GroundFact, fact.1 ∉ (before.map Stratum.symbols).flatten →
    fact.1 ∉ stratum.symbols → (fact ∈ model ↔ fact ∈ program.baseModel meaning)

theorem partial_of_subset {model : Model}
    (stratified : program.IsStratification (program.stratify.map Stratum.symbols))
    {after : List Stratum} (split : program.stratify = before ++ stratum :: after)
    (lower : program.perfectModel meaning (before.map Stratum.symbols) ⊆ model)
    (upper : model ⊆ leastModel meaning (program.rulesOf stratum.symbols)
      (program.perfectModel meaning (before.map Stratum.symbols))
      (program.perfectModel meaning (before.map Stratum.symbols))) :
    Partial meaning program before stratum model := by
  have splitGroups : program.stratify.map Stratum.symbols =
      before.map Stratum.symbols ++ stratum.symbols :: after.map Stratum.symbols := by
    rw [split, List.map_append, List.map_cons]
  have unchanged : ∀ fact : GroundFact, fact.1 ∉ stratum.symbols →
      (fact ∈ model ↔ fact ∈ program.perfectModel meaning (before.map Stratum.symbols)) := by
    intro fact outside
    refine ⟨fun known => mem_base_of_mem_leastModel (upper known) fun rule member same => ?_,
      fun known => lower known⟩
    exact outside (same ▸ (Program.mem_rulesOf.mp member).2)
  have disjoint := stratified.disjoint
  rw [splitGroups, List.pairwise_append] at disjoint
  refine ⟨fun fact stated => lower (Program.perfectModel_mono [] _ stated), ?_, ?_⟩
  · intro fact inBefore
    obtain ⟨group, groupMember, inGroup⟩ := List.mem_flatten.mp inBefore
    have apart : fact.1 ∉ (stratum.symbols :: after.map Stratum.symbols).flatten := by
      intro late
      obtain ⟨other, otherMember, inOther⟩ := List.mem_flatten.mp late
      exact disjoint.2.2 group groupMember other otherMember inGroup inOther
    rw [unchanged fact fun inStratum => apart (by simp [inStratum]), splitGroups,
      mem_perfectModel_append_iff _ _ apart]
  · intro fact notBefore outside
    rw [unchanged fact outside]
    exact mem_perfectModel_append_iff [] _ notBefore

/-- What is there when a task of a stratum has failed. -/
structure StoppedWithin (meaning : Interpretation) (program : Program) (eager : Bool)
    (before : List Stratum) (stratum : Stratum) (context : FixpointContext) (start : Evaluation)
    (error : EvalError) (later : Evaluation) (model : Model) : Prop where
  displays : later.Displays model
  others : Partial meaning program before stratum model
  /-- In rounds, nothing of the round that failed is visible. -/
  rounds : eager = false → ∃ (done : Nat) (deltas : List Nat) (machine : Machine),
    context.firstRounds done start.machine = .ok deltas machine ∧
      context.firstRounds (done + 1) start.machine = .error (.failed error) later.machine ∧
        (∀ symbol, later.contents symbol = { start with machine }.contents symbol) ∧
          model = naive meaning (program.rulesOf stratum.symbols)
            (program.perfectModel meaning (before.map Stratum.symbols)) done
  /-- Eagerly, everything that is visible can be derived in finitely many steps. -/
  derived : eager = true → ∀ fact ∈ model, fact.1 ∈ stratum.symbols → ∃ steps,
    fact ∈ naive meaning (program.rulesOf stratum.symbols)
      (program.perfectModel meaning (before.map Stratum.symbols)) steps

/-- A stratum in which a task fails adds some facts that can be derived; in rounds, those of the rounds
that were completed. -/
theorem Awaits.stoppedWithin {error : EvalError}
    (awaits : Awaits program functions config schedule fuel before stratum start)
    (built : program.Built) (computes : functions.Computes meaning) (bounded : config.Bounded)
    (avoids : config.eager = true →
      ∀ rule ∈ program.rules, DeltaRule.AvoidsIsolated rule.occurrences)
    (failed : runStratum fuel stratum start = .error (.failed error) later)
    (room : later.terms.HasRoom) :
    ∃ model, StoppedWithin meaning program config.eager before stratum
      (start.fixpointContext fuel stratum) start error later model := by
  have startRoom := ((interns_runStratum fuel stratum start).of_error failed).hasRoom room
  obtain ⟨resources, evaluation, faithful, member, reached⟩ :=
    awaits.exists_reached built computes bounded avoids startRoom
  obtain ⟨layout, symbolsEq, prepared, fits⟩ := faithful.exists_prepared member reached fuel
  have outside := faithful.negatesOutside member
  have stratified := faithful.isStratification_stratify
  obtain ⟨after, split⟩ := awaits.next
  obtain ⟨failed, laterEq⟩ := runStratum_eq_error failed
  rw [reached.config_eq] at failed
  cases eager : config.eager with
  | true =>
      rw [eager] at failed
      have suits : Strategy.Suits config
          (.eager (start.fixpointContext fuel stratum).deltaRules) := eager
      obtain ⟨model, lists, lower, upper⟩ := (FixpointContext.evaluateEagerly_leaves prepared outside
        reached.atRest (fits _ suits) stratum.rank).of_error failed room
      refine ⟨model, displays_of_lists lists, partial_of_subset stratified split lower upper, by simp,
        fun _ fact known _ => ?_⟩
      exact (mem_leastModel_iff_exists_naive outside).mp (upper known)
  | false =>
      rw [eager] at failed
      have suits : Strategy.Suits config .rounds := by simpa [Strategy.Suits] using eager
      obtain ⟨done, deltas, machine, ran, failedNext, grown, lists⟩ :=
        FixpointContext.firstRounds_of_evaluateRounds_eq_error prepared reached.atRest
          (fits .rounds suits) failed room
      obtain ⟨lengthEq, follows⟩ := (FixpointContext.firstRounds_leaves prepared reached.atRest
        (fits .rounds suits) done).of_ok ran (grown.hasRoom room)
      obtain ⟨recent, atRest⟩ := follows.atRest
      rw [lengthEq] at atRest
      have displays := displays_of_lists lists
      have displaysDone : { start with machine }.Displays _ := displays_of_atRest atRest
      refine ⟨_, displays, partial_of_subset stratified split (subset_naive done)
        (naive_subset_leastModel outside done), fun _ => ⟨done, deltas, machine, ran, failedNext, ?_,
          rfl⟩, by simp⟩
      intro symbol
      rw [displays.contents_eq, displaysDone.contents_eq]

/-- When a run fails, the strata before the one that failed hold their part of the perfect model, the
relations after it and those without rules their base facts, and its own relations hold what the last
completed round has left or, eagerly, facts that can be derived. -/
theorem stoppedWithin_of_run_eq_error {error : EvalError} {evaluation : Evaluation}
    (built : program.Built) (computes : functions.Computes meaning) (bounded : config.Bounded)
    (avoids : config.eager = true →
      ∀ rule ∈ program.rules, DeltaRule.AvoidsIsolated rule.occurrences)
    (accepted : ofProgram program functions config schedule = .ok evaluation)
    (failed : run fuel evaluation = .error (.failed error) later) (room : later.terms.HasRoom) :
    ∃ before stratum start model,
      Awaits program functions config schedule fuel before stratum start ∧
        runStratum fuel stratum start = .error (.failed error) later ∧
          StoppedWithin meaning program config.eager before stratum
            (start.fixpointContext fuel stratum) start error later model := by
  obtain ⟨before, stratum, start, awaits, failedAt⟩ := exists_awaits_of_run_eq_error accepted failed
  obtain ⟨model, stopped⟩ :=
    awaits.stoppedWithin built computes bounded avoids failedAt room
  exact ⟨before, stratum, start, model, awaits, failedAt, stopped⟩

/-- Whether an evaluation is accepted and a task fails, with room left. -/
def failsWell (fuel : Nat) : Except RunError Evaluation → Bool
  | .error _ => false
  | .ok evaluation =>
      match run fuel evaluation with
      | .error (.failed _) later => decide later.terms.HasRoom
      | _ => false

theorem exists_of_failsWell {outcome : Except RunError Evaluation}
    (failed : failsWell fuel outcome = true) :
    ∃ evaluation error later, outcome = .ok evaluation ∧
      run fuel evaluation = .error (.failed error) later ∧ later.terms.HasRoom := by
  unfold failsWell at failed
  split at failed
  · simp at failed
  · next evaluation =>
      split at failed
      · next error later ran => exact ⟨evaluation, error, later, rfl, ran, by simpa using failed⟩
      · simp at failed

theorem stoppedWithin_of_run_eq_error_sample :
    ∃ evaluation error later before stratum start model,
      ofProgram Sample.program Sample.failingFunctions {} .firstInFirstOut = .ok evaluation ∧
        run 20 evaluation = .error (.failed error) later ∧
          StoppedWithin Sample.meaning Sample.program false before stratum
            (start.fixpointContext 20 stratum) start error later model := by
  have failed : failsWell 20
      (ofProgram Sample.program Sample.failingFunctions {} .firstInFirstOut) = true := by
    decide +kernel
  obtain ⟨evaluation, error, later, accepted, failed, room⟩ := exists_of_failsWell failed
  obtain ⟨before, stratum, start, model, -, -, stopped⟩ :=
    stoppedWithin_of_run_eq_error Sample.built Sample.failingFunctions_computes (by decide)
      (fun eager => by cases eager) accepted failed room
  exact ⟨evaluation, error, later, before, stratum, start, model, accepted, failed, stopped⟩

end Evaluation

end Datalog
