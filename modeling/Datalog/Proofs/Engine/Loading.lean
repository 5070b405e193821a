import Datalog.Proofs.Engine.Warrant
import Datalog.Proofs.Evaluation.LoadAnswers
import Datalog.Proofs.Planning.Folding
import Datalog.Proofs.Planning.Registration

/-!
# Which base facts can be loaded

Once a program has been planned, setting it up fails exactly if one of its base facts has no value.  The
batches that the facts are cut into run on after one of them has failed, and each stops at its own first
bad fact.  Still the size of the batches does not matter for what is reported when they run in turn, nor,
in any order, for what is stored.
-/

namespace Datalog

variable {behaviour : Behaviour} {program : Program} {functions : Registry} {config : Config}
  {schedule : Schedule} {evaluation : Evaluation} {resources : Planner.Resources}

/-- A fact is the first in loading order that has no values, because of an error. -/
def Program.FailsFirst (program : Program) (behaviour : Behaviour) (fact : Fact)
    (error : EvalError) : Prop :=
  ∃ before after, program.listed = before ++ fact :: after ∧
    (∀ earlier ∈ before, ∃ values, Term.answerList behaviour earlier.args = .ok values) ∧
      Term.answerList behaviour fact.args = .error error

theorem Program.FailsFirst.fails {fact : Fact} {error : EvalError}
    (failsFirst : program.FailsFirst behaviour fact error) :
    Term.answerList behaviour fact.args = .error error := by
  obtain ⟨before, after, -, -, fails⟩ := failsFirst
  exact fails

theorem Program.FailsFirst.mem_facts {fact : Fact} {error : EvalError}
    (failsFirst : program.FailsFirst behaviour fact error) (wellFormed : program.WellFormed) :
    fact ∈ program.facts := by
  obtain ⟨before, after, listed, -⟩ := failsFirst
  rw [← wellFormed.mem_listed, listed]
  exact List.mem_append_right _ List.mem_cons_self

theorem Program.FailsFirst.findSome?_listed {fact : Fact} {error : EvalError}
    (failsFirst : program.FailsFirst behaviour fact error) :
    program.listed.findSome? (Fact.failure? behaviour) =
      some (TaskContext.loadError fact error) := by
  obtain ⟨before, after, listed, answers, fails⟩ := failsFirst
  refine List.findSome?_eq_some_iff.mpr
    ⟨before, fact, after, listed, Fact.failure?_of_error fails, fun earlier member => ?_⟩
  obtain ⟨values, answer⟩ := answers earlier member
  exact Fact.failure?_of_ok answer

namespace Evaluation

theorem stocked_workspace (valid : resources.Valid)
    (main : resources.main.Extends (.ofSymbols program.relations)) :
    (resources.workspace config schedule).Stocked program.schema ∅ ∅ where
  distinct := valid.distinct
  valid := StorePlan.valid_build valid.main
  registers symbol member := by
    have member : symbol ∈ program.relations := member
    rw [Planner.Resources.workspace, StorePlan.registers_build, main.relations,
      StorePlan.patterns?_ofSymbols, if_pos member]
    rfl
  within _ _ holds := absurd holds (StorePlan.not_holds_build valid.main)
  includes _ := False.elim

/-- Whether there is room for terms when all batches of base facts have run. -/
def loadsWithRoom (program : Program) (functions : Registry) (config : Config)
    (schedule : Schedule) : Bool :=
  match planAll program functions config program.stratify (startOf program) with
  | .error _ => true
  | .ok (_, resources) =>
      decide (storesLoaded program (loadContext functions config) schedule
        (resources.workspace config schedule)).terms.HasRoom

/-- What loading the base facts of a program that has been planned comes to. -/
structure LoadsFacts (program : Program) (behaviour : Behaviour) (config : Config)
    (schedule : Schedule) (outcome : Except RunError Evaluation) : Prop where
  fails_iff : (∃ error, outcome = .error (.load error)) ↔
    ∃ fact ∈ program.facts, ∃ error, Term.answerList behaviour fact.args = .error error
  /-- Where the batches run in turn, the error names the first fact that has no values. -/
  named : (∀ number, schedule.order number = 0) → ∀ fact error,
    program.FailsFirst behaviour fact error → (∀ text, error ≠ .panicked text) →
      outcome = .error (.load (.normalize fact.toAtom error))
  /-- A panic is reported as it is. -/
  panicked : (∀ number, schedule.order number = 0) → ∀ fact text,
    program.FailsFirst behaviour fact (.panicked text) → outcome = .error (.load (.panicked text))
  stored : (∀ fact ∈ program.facts, ∃ values, Term.answerList behaviour fact.args = .ok values) →
    ∃ evaluation, outcome = .ok evaluation ∧ evaluation.terms.Distinct ∧
      evaluation.db.Shows evaluation.terms (answered behaviour program.facts) ∧
        (config.Bounded → evaluation.Displays (answered behaviour program.facts))

/-- What has been stored is what the relations list, unless a limit is too large to be counted up to. -/
theorem displays_of_stocked {model : Model} (wellFormed : program.WellFormed)
    (accepted : ofProgram program functions config schedule = .ok evaluation)
    (stocked : evaluation.machine.workspace.Stocked program.schema model model)
    (bounded : config.Bounded) : evaluation.Displays model := by
  obtain ⟨resources, setUp⟩ := exists_setUp accepted
  have kept := (setUp.warranted wellFormed Warrant.universal_nothing
    (Warrant.honours_nothing functions)).stores
  have usable : evaluation.db.Usable := ⟨stocked.valid, by
    change evaluation.machine.workspace.db.limits.Bounded
    rw [kept.limits_eq]
    exact bounded⟩
  exact displays_of_lists ⟨usable, stocked.within, stocked.includes⟩

/-- The room that is left when all batches have run is room for loading what planning has left. -/
theorem loadFacts_answers_of_planned {planned : List (RelationSymbol × List RulePlan) × Option QueryPlan}
    (wellFormed : program.WellFormed) (follows : functions.Follows behaviour)
    (room : loadsWithRoom program functions config schedule = true)
    (ran : planAll program functions config program.stratify (startOf program) =
      .ok (planned, resources)) :
    Loads behaviour program.schema program schedule
      (loadFacts program functions config schedule
        { workspace := resources.workspace config schedule }) := by
  have continues := (planAll_produces (valid_startOf program) planned resources ran).1
  unfold loadsWithRoom at room
  rw [ran] at room
  exact loadFacts_answers wellFormed follows rfl
    (stocked_workspace continues.valid continues.extended.main) (of_decide_eq_true room)

/-- If all batches end well, all base facts have values. -/
theorem loadsFacts_of_ok (wellFormed : program.WellFormed)
    (accepted : ofProgram program functions config schedule = .ok evaluation)
    (loads : Loads behaviour program.schema program schedule (.ok evaluation.machine)) :
    LoadsFacts program behaviour config schedule (.ok evaluation) := by
  obtain ⟨noFailure, stocked⟩ := loads
  have noneFails : ∀ fact ∈ program.facts, ∀ error,
      Term.answerList behaviour fact.args ≠ .error error := fun fact member error fails =>
    Fact.failure?_eq_none_iff.mp (noFailure fact member) ⟨error, fails⟩
  refine ⟨⟨?_, ?_⟩, ?_, ?_, ?_⟩
  · rintro ⟨error, failed⟩
    cases failed
  · rintro ⟨fact, member, error, fails⟩
    exact absurd fails (noneFails fact member error)
  · intro _ fact error failsFirst
    exact absurd failsFirst.fails (noneFails fact (failsFirst.mem_facts wellFormed) error)
  · intro _ fact text failsFirst
    exact absurd failsFirst.fails (noneFails fact (failsFirst.mem_facts wellFormed) _)
  · intro _
    exact ⟨evaluation, rfl, stocked.distinct, ⟨stocked.within, stocked.includes⟩,
      displays_of_stocked wellFormed accepted stocked⟩

/-- If a batch fails, it does so for a base fact that has no values. -/
theorem loadsFacts_of_error {failure : RunError}
    (loads : Loads behaviour program.schema program schedule (.error failure)) :
    LoadsFacts program behaviour config schedule (.error failure) := by
  obtain ⟨error, rfl, ⟨fact, member, fails⟩, first⟩ := loads
  have failing : ∃ cause, Term.answerList behaviour fact.args = .error cause := by
    by_contra none
    rw [Fact.failure?_eq_none_iff.mpr none] at fails
    cases fails
  have reported : (∀ number, schedule.order number = 0) → ∀ {named cause},
      program.FailsFirst behaviour named cause → error = TaskContext.loadError named cause :=
    fun inTurn named cause failsFirst =>
      Option.some.inj ((first inTurn).symm.trans failsFirst.findSome?_listed)
  refine ⟨⟨fun _ => ⟨fact, member, failing⟩, fun _ => ⟨error, rfl⟩⟩, ?_, ?_, ?_⟩
  · intro inTurn named cause failsFirst noPanic
    rw [reported inTurn failsFirst]
    cases cause with
    | panicked text => exact absurd rfl (noPanic text)
    | _ => rfl
  · intro inTurn named text failsFirst
    rw [reported inTurn failsFirst]
    rfl
  · intro answered
    obtain ⟨values, answer⟩ := answered fact member
    obtain ⟨cause, answer'⟩ := failing
    cases answer.symm.trans answer'

/-- If the results and the failures of functions depend on the structure of the arguments alone, loading
fails exactly if a base fact has no values, in whatever order the batches run; in turn, for the first such
fact, whatever the size of the batches.  Otherwise the relations hold what the base facts state. -/
theorem loadsFacts_ofProgram (built : program.Built) (follows : functions.Follows behaviour)
    (planned : ∀ error, ofProgram program functions config schedule ≠ .error (.setup error))
    (room : loadsWithRoom program functions config schedule = true) :
    LoadsFacts program behaviour config schedule
      (ofProgram program functions config schedule) := by
  have wellFormed := built.wellFormed
  cases outcome : ofProgram program functions config schedule with
  | ok evaluation =>
      obtain ⟨rules, query, resources, machine, ran, loaded, rfl⟩ := exists_planAll outcome
      have loads := loadFacts_answers_of_planned wellFormed follows room ran
      rw [loaded] at loads
      exact loadsFacts_of_ok wellFormed outcome loads
  | error failure =>
      rcases setup_failure outcome with ⟨error, -, rfl⟩ | ⟨rules, resources, ran, failed⟩
      · exact absurd outcome (planned error)
      · have loads := loadFacts_answers_of_planned wellFormed follows room ran
        rw [failed] at loads
        exact loadsFacts_of_error loads

end Evaluation

namespace Sample

def number : RelationSymbol :=
  ⟨"number", 1⟩

/-- Calls that build a program with four base facts, of which the third and the fourth have no values. -/
def numberCalls : List Call := [
  .declare "number" 1,
  .addFact { symbol := number, args := [.int 1] },
  .addFact { symbol := number, args := [.call "wrap" [.int 2]] },
  .addFact { symbol := number, args := [.call "missing" []] },
  .addFact { symbol := number, args := [.call "absent" []] }]

def missing : Fact where
  symbol := number
  args := [.call "missing" []]

/-- Whether setting up has not failed before base facts were loaded. -/
def isPlanned : Except RunError Evaluation → Bool
  | .error (.setup _) => false
  | _ => true

theorem not_setup_of_isPlanned {outcome : Except RunError Evaluation}
    (planned : isPlanned outcome = true) (error : SetupError) : outcome ≠ .error (.setup error) := by
  rintro rfl
  cases planned

def burst : Function where
  apply store _ := (.error (.panic (some "boom")), store)
  extends_apply store _ := .refl store

/-- The only function that is registered panics. -/
def burstingFunctions : Registry where
  entries := [("boom", .native burst)]

/-- What these functions make of values. -/
def bursting : Behaviour := fun name _ =>
  if name = "boom" then .error (.panicked "boom") else .error (.unknownFunction name)

theorem follows_bursting : burstingFunctions.Follows bursting := by
  intro name store ids values distinct denotes
  by_cases isBoom : "boom" = name
  · subst isBoom
    exact fun room => ⟨distinct, rfl⟩
  · have unknown : burstingFunctions.find? name = none := by
      simp [burstingFunctions, Registry.find?, isBoom]
    unfold Registry.call
    rw [unknown]
    exact .throw ⟨distinct, by simp [bursting, Ne.symm isBoom]⟩

/-- Calls that build a program with one base fact, for which a function panics. -/
def burstCalls : List Call := [
  .declare "number" 1,
  .addFact { symbol := number, args := [.call "boom" []] }]

def burstFact : Fact where
  symbol := number
  args := [.call "boom" []]

end Sample

namespace Evaluation

/-- With batches of one fact and of three, the third fact is reported. -/
theorem loadsFacts_ofProgram_sample :
    let program := Program.ofCalls Sample.numberCalls
    program.FailsFirst Sample.behaviour Sample.missing (.unknownFunction "missing") ∧
      ∀ size ∈ [1, 3],
        ofProgram program Sample.functions { taskSize := size } .firstInFirstOut =
          .error (.load (.normalize Sample.missing.toAtom (.unknownFunction "missing"))) := by
  have failsFirst : (Program.ofCalls Sample.numberCalls).FailsFirst Sample.behaviour Sample.missing
      (.unknownFunction "missing") := by
    refine ⟨(Program.ofCalls Sample.numberCalls).listed.take 2,
      (Program.ofCalls Sample.numberCalls).listed.drop 3, by decide, ?_, rfl⟩
    have listed : (Program.ofCalls Sample.numberCalls).listed.take 2 =
        [⟨Sample.number, [.int 1]⟩, ⟨Sample.number, [.call "wrap" [.int 2]]⟩] := by
      decide
    simp [listed, Term.answerList, Term.answer, Sample.behaviour, Except.bind, Except.map]
  refine ⟨failsFirst, fun size member => ?_⟩
  have planned : ∀ size ∈ [1, 3], Sample.isPlanned (ofProgram (Program.ofCalls Sample.numberCalls)
      Sample.functions { taskSize := size } .firstInFirstOut) = true :=
    List.forall_mem_cons.mpr ⟨by decide +kernel, List.forall_mem_singleton.mpr (by decide +kernel)⟩
  have room : ∀ size ∈ [1, 3], loadsWithRoom (Program.ofCalls Sample.numberCalls) Sample.functions
      { taskSize := size } .firstInFirstOut = true :=
    List.forall_mem_cons.mpr ⟨by decide +kernel, List.forall_mem_singleton.mpr (by decide +kernel)⟩
  have loads := loadsFacts_ofProgram (Program.built_ofCalls Sample.numberCalls) Sample.follows
    (Sample.not_setup_of_isPlanned (planned size member)) (room size member)
  exact loads.named (fun _ => rfl) _ _ failsFirst fun text same => by cases same

/-- The error of a batch in which a function panics does not name the fact. -/
theorem ofProgram_panics :
    let program := Program.ofCalls Sample.burstCalls
    program.Built ∧ Sample.burstingFunctions.Follows Sample.bursting ∧
      program.FailsFirst Sample.bursting Sample.burstFact (.panicked "boom") ∧
        ofProgram program Sample.burstingFunctions { sequential := true } .firstInFirstOut ≠
          .error (.load (.normalize Sample.burstFact.toAtom (.panicked "boom"))) := by
  refine ⟨Program.built_ofCalls _, Sample.follows_bursting, ⟨[], [], by decide, by simp, rfl⟩, ?_⟩
  have failed : ofProgram (Program.ofCalls Sample.burstCalls) Sample.burstingFunctions
      { sequential := true } .firstInFirstOut = .error (.load (.panicked "boom")) :=
    Sample.eq_error_of_failure? (by decide +kernel)
  rw [failed]
  simp

end Evaluation

end Datalog
