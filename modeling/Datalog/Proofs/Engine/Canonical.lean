import Datalog.Proofs.Engine.PerfectModel
import Datalog.Proofs.Program.Calls
import Datalog.Proofs.Semantics.Listing

/-!
# What evaluations list

Evaluations of a program list the same rows, whatever their settings are and in whatever order the facts
and rules of the program stand.  The order of the rows is settled by their values as long as no rows are
told apart inside constructors only; there it is settled by the numbers that the evaluation has given.
-/

namespace Datalog

variable {meaning : Interpretation}

/-! ## The order of facts and rules -/

theorem leastModel_congr {rules rules' : List Rule} (same : ∀ rule, rule ∈ rules ↔ rule ∈ rules')
    (negative base : Model) :
    leastModel meaning rules negative base = leastModel meaning rules' negative base := by
  have consequencesEq : ∀ model, consequences meaning rules model negative =
      consequences meaning rules' model negative := by
    intro model
    ext fact
    exact exists_congr fun rule => and_congr_left fun _ => same rule
  simp only [leastModel, consequencesEq]

namespace Program

/-- Two programs have the same facts and rules, in any order. -/
structure Reorders (program other : Program) : Prop where
  facts : program.facts.Perm other.facts
  rules : program.rules.Perm other.rules

namespace Reorders

variable {program other : Program} (reorders : program.Reorders other)
include reorders

theorem baseModel_eq : program.baseModel meaning = other.baseModel meaning := by
  ext fact
  exact exists_congr fun stated => and_congr_left fun _ => reorders.facts.mem_iff

theorem perfectModel_eq (groups : List (List RelationSymbol)) :
    program.perfectModel meaning groups = other.perfectModel meaning groups := by
  have rulesOf : ∀ group rule, rule ∈ program.rulesOf group ↔ rule ∈ other.rulesOf group :=
    fun group rule => by rw [mem_rulesOf, mem_rulesOf, reorders.rules.mem_iff]
  induction groups using List.reverseRecOn with
  | nil => exact reorders.baseModel_eq
  | append_singleton groups group ih =>
      rw [perfectModel_append, perfectModel_append, ih, leastModel_congr (rulesOf group)]

theorem isDerived_iff {symbol : RelationSymbol} :
    program.IsDerived symbol ↔ other.IsDerived symbol :=
  exists_congr fun _ => and_congr_left fun _ => reorders.rules.mem_iff

theorem avoidsIsolated
    (avoids : ∀ rule ∈ program.rules, DeltaRule.AvoidsIsolated rule.occurrences) :
    ∀ rule ∈ other.rules, DeltaRule.AvoidsIsolated rule.occurrences :=
  fun rule member => avoids rule (reorders.rules.mem_iff.mpr member)

theorem isStratification {groups : List (List RelationSymbol)}
    (stratified : program.IsStratification groups) : other.IsStratification groups where
  covers rule member := stratified.covers rule (reorders.rules.mem_iff.mpr member)
  disjoint := stratified.disjoint
  respects before group after split rule member inGroup atom inBody derived :=
    stratified.respects before group after split rule (reorders.rules.mem_iff.mpr member) inGroup atom
      inBody (reorders.isDerived_iff.mpr derived)

end Reorders

end Program

namespace Evaluation

variable {program : Program} {functions : Registry}

/-! ## What one evaluation lists -/

theorem Faithful.distinct_of_run {strata : List Stratum} {config : Config} {schedule : Schedule}
    {resources : Planner.Resources} {evaluation later : Evaluation} {fuel : Nat}
    {stats : List StratumStats}
    (faithful : Faithful meaning program strata functions config schedule resources evaluation)
    (disjoint : (strata.map (·.symbols)).Pairwise List.Disjoint)
    (ran : run fuel evaluation = .ok stats later) (room : later.terms.HasRoom) :
    later.terms.Distinct := by
  have grown := (interns_run fuel evaluation).of_ok ran
  obtain ⟨reached, -⟩ := (faithful.run_leaves disjoint (grown.hasRoom room) fuel).of_ok ran room
  exact reached.atRest.stores.distinct

/-- An evaluation of a program has been run to its end, with room left in its store, and its settings
let the tuples of a view be counted. -/
structure Completes (program : Program) (functions : Registry) (config : Config) (schedule : Schedule)
    (later : Evaluation) : Prop where
  built : program.Built
  bounded : config.Bounded
  ran : ∃ evaluation fuel stats, ofProgram program functions config schedule = .ok evaluation ∧
    run fuel evaluation = .ok stats later
  room : later.terms.HasRoom

/-- The texts of a relation after an evaluation that has been run to its end with room left.  Insertion
sorts tuples in the same way and can be computed by unfolding. -/
def renderedAfter (fuel : Nat) (symbol : RelationSymbol) :
    Except RunError Evaluation → Option (List String)
  | .error _ => none
  | .ok evaluation =>
      match run fuel evaluation with
      | .ok _ later =>
          if later.terms.HasRoom then
            let sorted := (later.db.tuplesOf symbol).insertionSort later.terms.Ordered
            some (sorted.map later.terms.renderTuple)
          else
            none
      | .error _ _ => none

variable {config config' : Config} {schedule schedule' : Schedule} {later later' : Evaluation}

theorem exists_completes {fuel : Nat} {symbol : RelationSymbol} {texts : List String}
    (built : program.Built) (bounded : config.Bounded)
    (listed : renderedAfter fuel symbol (ofProgram program functions config schedule) = some texts) :
    ∃ later, Completes program functions config schedule later ∧ later.rendered symbol = texts := by
  unfold renderedAfter at listed
  split at listed
  · cases listed
  · next evaluation accepted =>
      split at listed
      · next stats later ran =>
          split at listed
          · next room =>
              have textsEq := Option.some.inj listed
              rw [← TermStore.sortTuples_eq_insertionSort] at textsEq
              exact ⟨later, ⟨built, bounded, ⟨evaluation, fuel, stats, accepted, ran⟩, room⟩, textsEq⟩
          · cases listed
      · cases listed

/-- At its end, an evaluation lists the rows of each relation in the order of its store. -/
theorem Completes.exists_lists (completes : Completes program functions config schedule later)
    (computes : functions.Computes meaning)
    (avoids : ∀ rule ∈ program.rules, DeltaRule.AvoidsIsolated rule.occurrences)
    (symbol : RelationSymbol) :
    ∃ rows, later.terms.Lists rows (later.contents symbol) ∧
      later.rendered symbol = rows.map Value.renderRow := by
  obtain ⟨evaluation, fuel, stats, accepted, ran⟩ := completes.ran
  obtain ⟨resources, faithful⟩ := exists_faithful completes.built
    (Program.layers_stratify completes.built.wellFormed) computes completes.bounded (fun _ => avoids)
    accepted
  have disjoint := faithful.isStratification_stratify.disjoint
  have displays := (faithful.displays_of_run disjoint ran completes.room).1
  exact TermStore.exists_lists (faithful.distinct_of_run disjoint ran completes.room)
    (displays.once symbol) (displays.denoted symbol)

/-! ## What two evaluations list -/

variable {other : Program}

/-- Evaluations of reordered programs have the same contents. -/
theorem Completes.contents_eq (completes : Completes program functions config schedule later)
    (completes' : Completes other functions config' schedule' later') (reorders : program.Reorders other)
    (computes : functions.Computes meaning)
    (avoids : ∀ rule ∈ program.rules, DeltaRule.AvoidsIsolated rule.occurrences)
    (symbol : RelationSymbol) : later.contents symbol = later'.contents symbol := by
  obtain ⟨evaluation, fuel, stats, accepted, ran⟩ := completes.ran
  obtain ⟨evaluation', fuel', stats', accepted', ran'⟩ := completes'.ran
  obtain ⟨stratified, displays, -⟩ := displays_of_ofProgram completes.built computes completes.bounded
    (fun _ => avoids) accepted ran completes.room
  obtain ⟨stratified', displays', -⟩ := displays_of_ofProgram completes'.built computes
    completes'.bounded (fun _ => reorders.avoidsIsolated avoids) accepted' ran' completes'.room
  rw [displays.contents_eq, displays'.contents_eq, reorders.perfectModel_eq,
    (reorders.isStratification stratified).perfectModel_eq stratified']

/-- Two evaluations of a program, or of one that has the same facts and rules in another order, list the
same texts.  They list them in the same order unless there are rows that differ inside, and they list
the rows in the same order exactly if the numbers of the arguments inside these rows compare in the
same way. -/
theorem rendered_of_reorders (completes : Completes program functions config schedule later)
    (completes' : Completes other functions config' schedule' later') (reorders : program.Reorders other)
    (computes : functions.Computes meaning)
    (avoids : ∀ rule ∈ program.rules, DeltaRule.AvoidsIsolated rule.occurrences)
    (symbol : RelationSymbol) :
    (later.rendered symbol).Perm (later'.rendered symbol) ∧
      ((∀ row ∈ later.contents symbol, ∀ row' ∈ later.contents symbol,
          ¬Value.DifferInside row row') →
        later.rendered symbol = later'.rendered symbol) ∧
      ∃ rows rows', later.rendered symbol = rows.map Value.renderRow ∧
        later'.rendered symbol = rows'.map Value.renderRow ∧
        later.terms.Lists rows (later.contents symbol) ∧
        later'.terms.Lists rows' (later.contents symbol) ∧
        (rows = rows' ↔ ∀ row ∈ later.contents symbol, ∀ row' ∈ later.contents symbol,
          Value.DifferInside row row' →
            Value.compareRows later.terms.numberOf row row' =
              Value.compareRows later'.terms.numberOf row row') := by
  obtain ⟨rows, lists, renderedEq⟩ := completes.exists_lists computes avoids symbol
  obtain ⟨rows', lists', renderedEq'⟩ :=
    completes'.exists_lists computes (reorders.avoidsIsolated avoids) symbol
  rw [← completes.contents_eq completes' reorders computes avoids symbol] at lists'
  refine ⟨?_, fun outside => ?_, rows, rows', renderedEq, renderedEq', lists, lists',
    lists.eq_iff lists'⟩
  · rw [renderedEq, renderedEq']
    exact (lists.perm lists').map Value.renderRow
  · have same : rows = rows' := (lists.eq_iff lists').mpr fun row member row' member' inside =>
      absurd inside (outside row member row' member')
    rw [renderedEq, renderedEq', same]

end Evaluation

namespace Sample

def reorderedCalls : List Call :=
  [.declare "edge" 2, .declare "path" 2, .declare "wrapped" 1, .declare "apart" 2,
      .addFact (fact 2 3), .addFact (fact 1 2)] ++ rules.reverse.map .addRule

theorem reorders : program.Reorders (Program.ofCalls reorderedCalls) where
  facts := by decide
  rules := by decide

/-- Calls that wrap two numbers, and pair what has been wrapped in all ways but two. -/
def pairCalls : List Call :=
  let wrapped : RelationSymbol := ⟨"r", 1⟩
  let pair : RelationSymbol := ⟨"q", 2⟩
  [.declare "r" 1,
    .declare "q" 2,
    .addFact { symbol := wrapped, args := [.ctor "f" [.int 1]] },
    .addFact { symbol := wrapped, args := [.ctor "f" [.int 2]] },
    .addRule
      { head := atom pair [.var "X", .var "Y"]
        body := [.predicate (atom wrapped [.var "X"]), .predicate (atom wrapped [.var "Y"]),
          .unification (.var "Y") (.int 2) true, .unification (.var "X") (.int 1) true] }]

end Sample

namespace Evaluation

theorem rendered_of_reorders_sample :
    ∃ later later',
      Completes Sample.program Sample.functions { sequential := true } .firstInFirstOut later ∧
      Completes (Program.ofCalls Sample.reorderedCalls) Sample.functions
          { sequential := true, eager := true } .firstInFirstOut later' ∧
        ∀ symbol, (later.rendered symbol).Perm (later'.rendered symbol) := by
  have built' := Program.built_ofCalls Sample.reorderedCalls
  have listed : renderedAfter 20 Sample.path (ofProgram Sample.program Sample.functions
      { sequential := true } .firstInFirstOut) = some ["(1, 2)", "(1, 3)", "(2, 3)"] := by
    decide +kernel
  have listed' : renderedAfter 20 Sample.path (ofProgram (Program.ofCalls Sample.reorderedCalls)
      Sample.functions { sequential := true, eager := true } .firstInFirstOut) =
        some ["(1, 2)", "(1, 3)", "(2, 3)"] := by
    decide +kernel
  obtain ⟨later, completes, -⟩ := exists_completes Sample.built (by decide) listed
  obtain ⟨later', completes', -⟩ := exists_completes built' (by decide) listed'
  exact ⟨later, later', completes, completes', fun symbol =>
    (rendered_of_reorders completes completes' Sample.reorders Sample.computes Sample.avoids symbol).1⟩

/-- Two sequential evaluations of one program that differ in the order in which literals are joined list
a relation in two orders. -/
theorem rendered_twice :
    let program := Program.ofCalls Sample.pairCalls
    (∀ rule ∈ program.rules, rule.head.negated = false ∧ DeltaRule.AvoidsIsolated rule.occurrences) ∧
      Registry.Computes {} (fun _ _ => none) ∧
      ∃ later later', Completes program {} { sequential := true } .firstInFirstOut later ∧
        Completes program {} { sequential := true, optimization := .boundRatio } .firstInFirstOut later' ∧
        later.rendered ⟨"r", 1⟩ = ["(f(2))", "(f(1))"] ∧
        later'.rendered ⟨"r", 1⟩ = ["(f(1))", "(f(2))"] := by
  have built := Program.built_ofCalls Sample.pairCalls
  have positive : ∀ rule ∈ (Program.ofCalls Sample.pairCalls).rules, rule.head.negated = false := by
    decide
  have plain : ∀ rule ∈ (Program.ofCalls Sample.pairCalls).rules, ∀ name ∈ rule.occurrences,
      name.toList.head? ≠ some '$' := by
    decide +kernel
  -- Planning the literals as they are written stores 2 before 1, and planning them by the share of bound
  -- arguments stores 1 before 2.
  have listed : renderedAfter 20 ⟨"r", 1⟩ (ofProgram (Program.ofCalls Sample.pairCalls) {}
      { sequential := true } .firstInFirstOut) = some ["(f(2))", "(f(1))"] := by
    decide +kernel
  have listed' : renderedAfter 20 ⟨"r", 1⟩ (ofProgram (Program.ofCalls Sample.pairCalls) {}
      { sequential := true, optimization := .boundRatio } .firstInFirstOut) =
        some ["(f(1))", "(f(2))"] := by
    decide +kernel
  obtain ⟨later, completes, renderedEq⟩ := exists_completes built (by decide) listed
  obtain ⟨later', completes', renderedEq'⟩ := exists_completes built (by decide) listed'
  refine ⟨fun rule member => ⟨positive rule member, ?_⟩, Registry.computes_empty _, later, later', completes,
    completes', renderedEq, renderedEq'⟩
  exact DeltaRule.avoidsIsolated_of_head (plain rule member)

end Evaluation

end Datalog
