import Datalog.Proofs.Engine.Anonymous
import Datalog.Proofs.Engine.Query
import Datalog.Proofs.Planning.HeadSigns

/-!
# Rules with negated heads

The head of a rule and the query may be marked as negated.  The mark is read, kept and printed, but no
check looks at it, and neither does an evaluation: the rule derives the tuples that its text denies, and
the query is answered with the tuples that its text excludes.
-/

namespace Datalog

open Evaluation

/-! ## Programs -/

namespace Program

variable (program : Program)

theorem evaluatesLike_unsigned : program.EvaluatesLike program.unsigned :=
  program.evaluatesLike_reword .unsigning

/-- A rule is refused for the same reason with and without the sign of its head. -/
theorem addRule_eq_error (rule : Rule) (error : ProgramError) :
    program.addRule rule = .error error ↔ program.addRule rule.unsigned = .error error := by
  have used : program.checkUse rule.unsigned.head.symbol rule.unsigned.head.args =
      program.checkUse rule.head.symbol rule.head.args := rfl
  have body : program.checkBody rule.unsigned.body = program.checkBody rule.body := rfl
  rw [addRule, addRule, used, body]
  cases program.checkUse rule.head.symbol rule.head.args with
  | error => exact Iff.rfl
  | ok => cases program.checkBody rule.body with
    | error => exact Iff.rfl
    | ok => constructor <;> rintro ⟨⟩

theorem setQuery_eq_error (query : Atom) (error : ProgramError) :
    program.setQuery query = .error error ↔ program.setQuery query.unsigned = .error error := by
  have used : program.checkUse query.unsigned.symbol query.unsigned.args =
      program.checkUse query.symbol query.args := rfl
  rw [setQuery, setQuery, used]
  cases program.checkUse query.symbol query.args with
  | error => exact Iff.rfl
  | ok => constructor <;> rintro ⟨⟩

end Program

/-! ## Descriptions -/

namespace Source

def AtomSource.unsigned (atom : AtomSource) : AtomSource :=
  { atom with negated := false }

def RuleSource.unsigned (rule : RuleSource) : RuleSource :=
  { rule with head := rule.head.unsigned }

namespace ProgramSource

/-- A description without the signs of the heads and of the query. -/
def unsigned (source : ProgramSource) : ProgramSource :=
  { source with
    rules := source.rules.map RuleSource.unsigned
    query := source.query.map AtomSource.unsigned }

variable (source : ProgramSource)

theorem violations_unsigned : source.unsigned.violations = source.violations := by
  have rules : source.unsigned.rules.flatMap (RuleSource.violations source.symbol?) =
      source.rules.flatMap (RuleSource.violations source.symbol?) :=
    List.flatMap_map ..
  have query : source.unsigned.query.toList.flatMap (queryViolations source.symbol?) =
      source.query.toList.flatMap (queryViolations source.symbol?) := by
    unfold unsigned
    cases source.query <;> rfl
  have sameSymbols : source.unsigned.symbol? = source.symbol? := rfl
  rw [violations, violations, sameSymbols, rules, query]
  rfl

theorem rules_unsigned (before : Nat) (rules : List RuleSource) :
    readInTurn RuleSource.terms (RuleSource.meant source.symbol?) before
        (rules.map RuleSource.unsigned) =
      (readInTurn RuleSource.terms (RuleSource.meant source.symbol?) before rules).map
        Rule.unsigned := by
  induction rules generalizing before with
  | nil => rfl
  | cons rule rules ih => exact congrArg _ (ih _)

theorem meant_unsigned : source.unsigned.meant = source.meant.unsigned := by
  have terms : source.unsigned.rules.flatMap RuleSource.terms =
      source.rules.flatMap RuleSource.terms :=
    List.flatMap_map ..
  have sameSymbols : source.unsigned.symbol? = source.symbol? := rfl
  have query : source.unsigned.meant.query = source.meant.unsigned.query := by
    rw [meant, terms]
    unfold unsigned Program.unsigned meant
    cases source.query <;> rfl
  have rules : source.unsigned.meant.rules = source.meant.unsigned.rules :=
    source.rules_unsigned 0 source.rules
  calc
    source.unsigned.meant = { source.meant with
        rules := source.unsigned.meant.rules, query := source.unsigned.meant.query } := rfl
    _ = source.meant.unsigned := by rw [rules, query]; rfl

/-- A description is accepted or refused whatever the signs of heads and query. -/
theorem toProgram_unsigned :
    source.unsigned.toProgram = source.toProgram.map Program.unsigned := by
  rw [toProgram_eq, toProgram_eq, violations_unsigned, meant_unsigned]
  cases source.violations <;> rfl

theorem signs_meant (before : Nat) (rules : List RuleSource) :
    (readInTurn RuleSource.terms (RuleSource.meant source.symbol?) before rules).map
        (·.head.negated) = rules.map (·.head.negated) := by
  induction rules generalizing before with
  | nil => rfl
  | cons rule rules ih => exact congrArg _ (ih _)

/-- The signs that are written are the signs of the program. -/
theorem signs_of_toProgram {source : ProgramSource} {program : Program}
    (accepted : source.toProgram = .ok program) :
    program.rules.map (·.head.negated) = source.rules.map (·.head.negated) ∧
      program.query.map (·.negated) = source.query.map (·.negated) := by
  obtain ⟨-, rfl⟩ := source.toProgram_eq_ok.mp accepted
  refine ⟨source.signs_meant 0 source.rules, ?_⟩
  rw [meant, Option.map_map]
  rfl

/-- The signs of heads and queries are kept and never read.  A description, a rule or a query is refused
exactly if it is without the signs, with the same error; an accepted description gives a program with the
signs that are written; and a program has the same strata, is accepted for the same settings and gives the
same replies as without them. -/
theorem headSigns_unread (source : ProgramSource) (program : Program) (rule : Rule) (query : Atom) :
    (∀ error, source.toProgram = .error error ↔ source.unsigned.toProgram = .error error) ∧
    (∀ error, program.addRule rule = .error error ↔ program.addRule rule.unsigned = .error error) ∧
    (∀ error, program.setQuery query = .error error ↔
      program.setQuery query.unsigned = .error error) ∧
    (∀ accepted, source.toProgram = .ok accepted →
      source.unsigned.toProgram = .ok accepted.unsigned ∧
        accepted.rules.map (·.head.negated) = source.rules.map (·.head.negated) ∧
          accepted.query.map (·.negated) = source.query.map (·.negated)) ∧
    program.EvaluatesLike program.unsigned := by
  refine ⟨?_, program.addRule_eq_error rule, program.setQuery_eq_error query, ?_,
    program.evaluatesLike_unsigned⟩
  · intro error
    rw [toProgram_unsigned]
    cases source.toProgram with
    | error => exact Iff.rfl
    | ok => constructor <;> rintro ⟨⟩
  · intro accepted isAccepted
    refine ⟨?_, signs_of_toProgram isAccepted⟩
    rw [toProgram_unsigned, isAccepted]
    rfl

end ProgramSource

end Source

namespace Sample

/-- A rule that denies what it derives, and a query that excludes what it is answered with. -/
def denying : Source.ProgramSource where
  relations := [⟨"p", .ofNat 1⟩, ⟨"q", .ofNat 1⟩]
  facts := Source.FactTable.singleton "q" [[.int 1], [.int 2]]
  rules := [{
    head := ⟨"p", [.name "X"], true⟩
    body := [.atom ⟨"q", [.name "X"], false⟩] }]
  query := some ⟨"q", [.name "X"], true⟩

end Sample

namespace Source

theorem ProgramSource.headSigns_unread_sample :
    Sample.denying.toProgram = .ok Sample.denying.meant ∧
      Sample.denying.unsigned.toProgram = .ok Sample.denying.meant.unsigned ∧
      Sample.denying.meant.rules.map (·.head.negated) = [true] ∧
      Sample.denying.meant.query.map (·.negated) = some true ∧
      Sample.denying.meant.EvaluatesLike Sample.denying.meant.unsigned := by
  have accepted : Sample.denying.toProgram = .ok Sample.denying.meant :=
    (ProgramSource.toProgram_eq_ok _).mpr ⟨by decide +kernel, rfl⟩
  obtain ⟨-, -, -, keeps, alike⟩ :=
    ProgramSource.headSigns_unread Sample.denying Sample.denying.meant default default
  obtain ⟨unsigned, rules, query⟩ := keeps _ accepted
  exact ⟨accepted, unsigned, rules, query, alike⟩

/-- Nothing refuses the rule and the query, the rule derives what it denies, and the answer lists what
the query excludes. -/
theorem ProgramSource.negated_head_accepted :
    let started := ofProgram Sample.denying.meant {} { sequential := true } .firstInFirstOut
    Sample.denying.toProgram = .ok Sample.denying.meant ∧
      Sample.denying.meant.rules.map (·.render) = ["!p(X) :-\n    q(X)."] ∧
      Sample.denying.meant.query.map (·.render) = some "!q(X)" ∧
      (∀ rule ∈ Sample.denying.meant.rules,
        ∃ later, Sample.denying.meant.addRule rule = .ok later) ∧
      (∀ query ∈ Sample.denying.meant.query,
        ∃ later, Sample.denying.meant.setQuery query = .ok later) ∧
      renderedAfter 20 ⟨"p", 1⟩ started = some ["(1)", "(2)"] ∧
      Evaluation.answerOf started = some (.ok [[⟨0⟩], [⟨1⟩]]) := by
  have accepted : Sample.denying.toProgram = .ok Sample.denying.meant :=
    (ProgramSource.toProgram_eq_ok _).mpr ⟨by decide +kernel, rfl⟩
  refine ⟨accepted, by decide +kernel, by decide +kernel, ?_, ?_, by decide +kernel,
    by decide +kernel⟩
  · intro rule member
    obtain rfl := List.mem_singleton.mp member
    exact ⟨_, rfl⟩
  · intro query member
    obtain rfl := Option.mem_some.mp member
    exact ⟨_, rfl⟩

end Source

end Datalog
