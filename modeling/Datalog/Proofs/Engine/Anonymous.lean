import Datalog.Proofs.Engine.Canonical
import Datalog.Proofs.Engine.Rewording
import Datalog.Proofs.Planning.Renaming
import Datalog.Proofs.Source.Anonymous
import Datalog.Proofs.Source.Program

/-!
# Replacing underscores

An underscore can be replaced by any other variable, and nothing that can be seen of the program changes,
as long as neither its number nor a later one is written as a name.  If such a name is written, the
underscore stands for the same variable, and the rule asks for equal values.
-/

namespace Datalog

open Evaluation

theorem Program.evaluatesLike_rename {newName : String → String} (injective : newName.Injective)
    (keeps : DeltaRule.KeepsIsolated newName) (program : Program) :
    program.EvaluatesLike (program.rename newName) :=
  program.evaluatesLike_reword (.renaming newName injective keeps)

/-- The texts of a relation are the same after a run of evaluations that cannot be told apart. -/
theorem Evaluation.BehavesLike.renderedAfter_eq {first second : Evaluation}
    (alike : first.BehavesLike second) (fuel : Nat) (symbol : RelationSymbol) :
    renderedAfter fuel symbol (.ok second) = renderedAfter fuel symbol (.ok first) := by
  have replies := alike.replies_eq [.run fuel]
  have workspace := alike.workspace_eq [.run fuel]
  simp only [serveAll, serve, List.cons.injEq, Reply.ran.injEq, and_true] at replies workspace
  cases ran : run fuel first <;> cases ran' : run fuel second <;> rw [ran, ran'] at replies workspace
  case ok.ok later stats' later' =>
    have same : later'.machine.workspace = later.machine.workspace := workspace
    let texts (workspace : Workspace) : Option (List String) :=
      if workspace.terms.HasRoom then
        some (((workspace.db.tuplesOf symbol).insertionSort workspace.terms.Ordered).map
          workspace.terms.renderTuple)
      else none
    simp only [renderedAfter, ran, ran']
    exact congrArg texts same
  case error.error => simp only [renderedAfter, ran, ran']
  all_goals cases replies

theorem Evaluation.SetsUpLike.renderedAfter_eq {first second : Except RunError Evaluation}
    (alike : SetsUpLike first second) (fuel : Nat) (symbol : RelationSymbol) :
    renderedAfter fuel symbol second = renderedAfter fuel symbol first := by
  cases first with
  | error => cases second with
    | error => rfl
    | ok => exact alike.elim
  | ok first => cases second with
    | error => exact alike.elim
    | ok second => exact BehavesLike.renderedAfter_eq alike fuel symbol

namespace Source

theorem not_isVariable_isolatedName (number : Nat) :
    ¬IsVariable (DeltaRule.isolatedName number) := by
  have first : (DeltaRule.isolatedName number).toList.head? = some '$' := by
    simp [DeltaRule.isolatedName, String.toList_append]
  rw [IsVariable, first]
  decide

theorem Replaces.keepsIsolated {name : String} {index later : Nat}
    (replaces : Replaces name index later) :
    DeltaRule.KeepsIsolated (renumbered name index later) := by
  intro number
  have different : ∀ bare, IsVariable bare → DeltaRule.isolatedName number ≠ bare := by
    rintro bare isVariable rfl
    exact not_isVariable_isolatedName number isVariable
  exact renumbered_of_other (different name replaces.isVariable) fun other _ _ =>
    different _ (isVariable_anonymousName other)

/-- Underscores are numbered without regard to the names that are written.  The one of number `index`
becomes a variable that occurs nowhere else exactly if its name is not written.  If this holds for it
and for all underscores behind it, any other variable can be written for it. -/
structure NumbersUnderscores (source : ProgramSource) (program : Program) : Prop where
  occurrences_eq : program.occurrences = numbered 0 (TermSource.namesOfList source.ruleTerms)
  once_iff : ∀ index, 0 < index → index ≤ underscores source.ruleTerms →
    (program.occurrences.count (anonymousName index) = 1 ↔
      anonymousName index ∉ TermSource.namesOfList source.ruleTerms)
  replaceable : ∀ index name, 0 < index → index ≤ underscores source.ruleTerms →
    (∀ number, index ≤ number → number ≤ underscores source.ruleTerms →
      program.occurrences.count (anonymousName number) = 1) →
        IsVariable name → name ∉ source.names → name ∉ program.occurrences →
          ∃ renamed, (source.naming name index).toProgram = .ok renamed ∧
            program.EvaluatesLike renamed

/-- What becomes of the underscores of an accepted description. -/
theorem ProgramSource.numbersUnderscores {source : ProgramSource} {program : Program}
    (accepted : source.toProgram = .ok program) : NumbersUnderscores source program := by
  obtain ⟨-, rfl⟩ := source.toProgram_eq_ok.mp accepted
  have once_iff : ∀ index, 0 < index → index ≤ underscores source.ruleTerms →
      (source.meant.occurrences.count (anonymousName index) = 1 ↔
        anonymousName index ∉ TermSource.namesOfList source.ruleTerms) := by
    intro index positive bounded
    rw [count_anonymousName positive bounded, Nat.add_eq_right, List.count_eq_zero]
  refine ⟨source.occurrences_meant, once_iff, ?_⟩
  intro index name positive bounded once isVariable notNamed notVariable
  obtain ⟨later, count⟩ := Nat.exists_eq_add_of_le bounded
  have inRules : ∀ bare ∈ TermSource.namesOfList source.ruleTerms, bare ∈ source.names :=
    fun _ => List.mem_append_right _
  have replaces : Replaces name index later := by
    refine ⟨positive, isVariable, ?_, ?_⟩
    · rintro rfl
      exact notNamed (inRules _ (List.count_pos_iff.mp (positive.trans_le bounded)))
    · rintro number isPositive below rfl
      apply notVariable
      rw [← List.count_pos_iff, count_anonymousName isPositive (count ▸ below)]
      exact Nat.succ_pos _
  have spares : Spares name index later (TermSource.namesOfList source.ruleTerms) := by
    refine ⟨fun member => notNamed (inRules _ member), fun number above below => ?_⟩
    rw [← count] at below
    exact (once_iff number (positive.trans_le above) below).mp (once number above below)
  exact ⟨_, replaces.toProgram_naming spares count.le accepted,
    Program.evaluatesLike_rename (Equiv.injective _) replaces.keepsIsolated _⟩

end Source

namespace Sample

/-- A rule with one underscore behind the variable that is given. -/
def projecting (bare : String) : Source.ProgramSource where
  relations := [⟨"q", .ofNat 1⟩, ⟨"r", .ofNat 2⟩]
  facts := Source.FactTable.singleton "r" [[.int 1, .int 2], [.int 3, .int 3]]
  rules := [{
    head := ⟨"q", [.name bare], false⟩
    body := [.atom ⟨"r", [.name bare, .name "_"], false⟩] }]

/-- The texts of the first column after a sequential evaluation. -/
def firstColumn (program : Program) : Option (List String) :=
  renderedAfter 20 ⟨"q", 1⟩ (ofProgram program {} { sequential := true } .firstInFirstOut)

theorem firstColumn_eq {first second : Program} (alike : first.EvaluatesLike second) :
    firstColumn second = firstColumn first :=
  SetsUpLike.renderedAfter_eq (alike.ofProgram ..) 20 _

end Sample

namespace Source

theorem ProgramSource.numbersUnderscores_sample :
    ∃ program, (Sample.projecting "X").toProgram = .ok program ∧
      NumbersUnderscores (Sample.projecting "X") program ∧
        program.occurrences.count (anonymousName 1) = 1 ∧
          ∃ renamed, ((Sample.projecting "X").naming "Y" 1).toProgram = .ok renamed ∧
            program.EvaluatesLike renamed := by
  have accepted : (Sample.projecting "X").toProgram = .ok (Sample.projecting "X").meant :=
    (ProgramSource.toProgram_eq_ok _).mpr ⟨by decide +kernel, rfl⟩
  have numbers := ProgramSource.numbersUnderscores accepted
  have once : (Sample.projecting "X").meant.occurrences.count (anonymousName 1) = 1 := by
    decide +kernel
  have replaced := numbers.replaceable 1 "Y" (by decide) (by decide +kernel) (by decide +kernel)
    (by decide) (by decide +kernel) (by decide +kernel)
  exact ⟨_, accepted, numbers, once, replaced⟩

/-- The underscore of this rule stands for the variable that is written, so only equal numbers are found;
another name in its place finds both rows. -/
theorem ProgramSource.underscore_captured :
    ∃ program renamed, (Sample.projecting "_#1").toProgram = .ok program ∧
      ((Sample.projecting "_#1").naming "Y" 1).toProgram = .ok renamed ∧
        IsVariable "Y" ∧ "Y" ∉ (Sample.projecting "_#1").names ∧ "Y" ∉ program.occurrences ∧
          program.occurrences.count (anonymousName 1) = 3 ∧
            Sample.firstColumn program = some ["(3)"] ∧
              Sample.firstColumn renamed = some ["(1)", "(3)"] ∧ ¬program.EvaluatesLike renamed := by
  have accepted : (Sample.projecting "_#1").toProgram = .ok (Sample.projecting "_#1").meant :=
    (ProgramSource.toProgram_eq_ok _).mpr ⟨by decide +kernel, rfl⟩
  have accepted' : ((Sample.projecting "_#1").naming "Y" 1).toProgram =
      .ok ((Sample.projecting "_#1").naming "Y" 1).meant :=
    (ProgramSource.toProgram_eq_ok _).mpr ⟨by decide +kernel, rfl⟩
  have joined : Sample.firstColumn (Sample.projecting "_#1").meant = some ["(3)"] := by
    decide +kernel
  have listed : Sample.firstColumn ((Sample.projecting "_#1").naming "Y" 1).meant =
      some ["(1)", "(3)"] := by
    decide +kernel
  refine ⟨_, _, accepted, accepted', by decide, by decide +kernel, by decide +kernel,
    by decide +kernel, joined, listed, fun alike => ?_⟩
  rw [Sample.firstColumn_eq alike, joined] at listed
  exact absurd listed (by decide)

end Source

end Datalog
