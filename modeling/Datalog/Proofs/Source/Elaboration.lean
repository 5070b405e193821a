import Datalog.Proofs.Source.Description

/-!
# From a description to the program that is meant

The pass gives the program that a description means if nothing is wrong with the description, and
otherwise the first violation.  Nothing is wrong with it exactly if it declares every relation that it
uses, and each of them once, uses them with the right number of arguments, has facts without
variables, and leaves no name empty.
-/

namespace Datalog
namespace Source

/-! ## Declarations -/

theorem find?_eraseDups {α : Type} [DecidableEq α] (holds : α → Bool) (items : List α) :
    items.eraseDups.find? holds = items.find? holds := by
  induction items using List.reverseRecOn with
  | nil => rfl
  | append_singleton items item ih =>
      rw [eraseDups_concat, List.find?_append]
      split
      · next old =>
          rw [ih]
          cases found : items.find? holds with
          | some other => rfl
          | none => simp [List.find?_eq_none.mp found item old]
      · rw [List.find?_append, ih]

theorem declarationsOf_eq_some {relations : List RelationDecl} {name : String}
    {symbol : RelationSymbol} (found : declarationsOf relations name = some symbol) :
    ∃ relation ∈ relations, relation.name = name ∧ relation.symbol = symbol := by
  obtain ⟨relation, first, isSymbol⟩ := Option.map_eq_some_iff.mp found
  exact ⟨relation, List.mem_of_find?_eq_some first, by simpa using List.find?_some first, isSymbol⟩

theorem declarationsOf_concat (relations : List RelationDecl) (relation : RelationDecl)
    (name : String) :
    declarationsOf (relations ++ [relation]) name =
      (declarationsOf relations name).or
        (if relation.name = name then some relation.symbol else none) := by
  rw [declarationsOf, declarationsOf, List.find?_append]
  cases relations.find? (·.name = name) with
  | some earlier => rfl
  | none => by_cases same : relation.name = name <;> simp [same]

/-- The program that only declares relations. -/
def declaring (relations : List RelationDecl) : Program where
  relations := (relations.map RelationDecl.symbol).eraseDups

theorem relation?_declaring (relations : List RelationDecl) :
    (declaring relations).relation? = declarationsOf relations := by
  funext name
  rw [Program.relation?, declaring, find?_eraseDups, List.find?_map]
  rfl

theorem declaring_concat (relations : List RelationDecl) (relation : RelationDecl) :
    declaring (relations ++ [relation]) =
      if relation.symbol ∈ relations.map RelationDecl.symbol then declaring relations
      else { relations := (declaring relations).relations ++ [relation.symbol] } := by
  rw [declaring, List.map_append, List.map_singleton, eraseDups_concat]
  split <;> rfl

theorem declare_declaring (relations : List RelationDecl) (relation : RelationDecl) :
    (declaring relations).declare relation.name relation.arity.toNat =
      unlessViolated (redeclared (declarationsOf (relations ++ [relation])) relation)
        (declaring (relations ++ [relation])) := by
  rw [Program.declare, relation?_declaring, redeclared, declarationsOf_concat, declaring_concat]
  cases found : declarationsOf relations relation.name with
  | none =>
      have new : relation.symbol ∉ relations.map RelationDecl.symbol := by
        intro member
        obtain ⟨other, isOther, same⟩ := List.mem_map.mp member
        have named : other.name = relation.name := congrArg RelationSymbol.name same
        have absent := Option.map_eq_none_iff.mp found
        simpa [named] using List.find?_eq_none.mp absent other isOther
      rw [if_neg new, if_pos rfl]
      simp [RelationDecl.symbol, unlessViolated, declaring]
  | some symbol =>
      obtain ⟨first, isFirst, named, rfl⟩ := declarationsOf_eq_some found
      by_cases same : first.symbol.arity = relation.arity.toNat
      · have old : relation.symbol ∈ relations.map RelationDecl.symbol :=
          List.mem_map.mpr ⟨first, isFirst, congrArg₂ RelationSymbol.mk named same⟩
        simp [same, old, unlessViolated]
      · simp [same, unlessViolated]

/-- What is wrong with a declaration depends on the declarations in front of it only. -/
theorem redeclared_concat {relations : List RelationDecl} {declared : RelationDecl}
    (member : declared ∈ relations) (relation : RelationDecl) :
    redeclared (declarationsOf (relations ++ [relation])) declared =
      redeclared (declarationsOf relations) declared := by
  have found : (declarationsOf relations declared.name).isSome := by
    rw [declarationsOf, Option.isSome_map, List.find?_isSome]
    exact ⟨declared, member, by simp⟩
  obtain ⟨symbol, found⟩ := Option.isSome_iff_exists.mp found
  rw [redeclared, redeclared, declarationsOf_concat, found, Option.some_or]

theorem declareAll_eq (relations : List RelationDecl) :
    declareAll {} relations =
      unlessViolated (relations.flatMap (redeclared (declarationsOf relations)))
        (declaring relations) := by
  induction relations using List.reverseRecOn with
  | nil => rfl
  | append_singleton relations relation ih =>
      have earlier : relations.flatMap (redeclared (declarationsOf (relations ++ [relation]))) =
          relations.flatMap (redeclared (declarationsOf relations)) :=
        List.flatMap_congr fun declared member => redeclared_concat member relation
      rw [declareAll, List.foldlM_append, List.flatMap_append, earlier, ← declareAll, ih]
      apply unlessViolated_bind
      intro
      rw [List.foldlM_cons, List.flatMap_singleton]
      simp only [List.foldlM_nil, bind_pure]
      exact declare_declaring relations relation

/-! ## Uses of relations -/

section Uses

variable {program : Program} {symbol? : Declarations} {before : Nat}

theorem checkUse_eq (declares : program.relation? = symbol?) {name : String}
    {args : List TermSource} {symbol : RelationSymbol} (found : symbol? name = some symbol) :
    program.checkUse symbol (TermSource.meantList before args) =
      unlessViolated (misapplied symbol? name args) () := by
  subst declares
  have named : symbol.name = name := by simpa using List.find?_some found
  rw [Program.checkUse, named, misapplied, found, TermSource.length_meantList]
  by_cases same : args.length = symbol.arity <;> simp [same, unlessViolated]

theorem exists_of_undeclared_eq_nil {name : String} (right : undeclared symbol? name = []) :
    ∃ symbol, symbol? name = some symbol := by
  rw [undeclared] at right
  cases found : symbol? name with
  | some symbol => exact ⟨symbol, rfl⟩
  | none => simp [found] at right

theorem checkAtom_eq (declares : program.relation? = symbol?) {atom : AtomSource}
    (right : atom.violations symbol? = []) :
    program.checkUse (atom.meant symbol? before).symbol (atom.meant symbol? before).args =
      unlessViolated (misapplied symbol? atom.rel atom.args) () := by
  obtain ⟨symbol, found⟩ := exists_of_undeclared_eq_nil (List.append_eq_nil_iff.mp right).1
  rw [AtomSource.meant, found]
  exact checkUse_eq declares found

theorem checkBody_eq (declares : program.relation? = symbol?) {body : List LiteralSource}
    (right : body.flatMap (LiteralSource.violations symbol?) = []) :
    program.checkBody (readInTurn LiteralSource.terms (LiteralSource.meant symbol?) before body) =
      unlessViolated (body.flatMap (LiteralSource.misapplied symbol?)) () := by
  induction body generalizing before with
  | nil => rfl
  | cons literal body ih =>
      obtain ⟨here, behind⟩ := List.append_eq_nil_iff.mp right
      cases literal with
      | eq lhs rhs | neq lhs rhs => exact ih behind
      | atom described =>
          rw [List.flatMap_cons, readInTurn, LiteralSource.meant, Program.checkBody,
            checkAtom_eq declares here]
          exact unlessViolated_bind fun _ => ih behind

/-! ## Facts, rules and the query -/

theorem addFact_elaborates (declares : program.relation? = symbol?) {name : String}
    {symbol : RelationSymbol} (found : symbol? name = some symbol) (described : List TermSource) :
    Elaborates
      (do
        let args ← TermSource.toTerms described
        program.addFact { symbol, args })
      0 (factViolations symbol? name described)
      { program with facts := program.facts ++ [factMeant symbol? name described] } 0 := by
  have isMeant : factMeant symbol? name described =
      { symbol, args := TermSource.meantList 0 described } := by
    rw [factMeant, found]
    rfl
  have ground : Term.isGroundList (TermSource.meantList 0 described) = true ↔
      ∀ bare ∈ TermSource.namesOfList described, ¬IsVariable bare := by
    rw [Term.isGroundList_iff, TermSource.varsList_meantList, numbered_eq_nil]
  have checked : program.addFact { symbol, args := TermSource.meantList 0 described } =
      unlessViolated (misapplied symbol? name described ++ inconstant symbol? name described)
        { program with facts := program.facts ++ [factMeant symbol? name described] } := by
    rw [Program.addFact, checkUse_eq declares found]
    apply unlessViolated_bind
    intro
    rw [inconstant, ← isMeant]
    by_cases constant : ∀ bare ∈ TermSource.namesOfList described, ¬IsVariable bare
    · have isGround := ground.mpr constant
      rw [isMeant, if_pos isGround, if_neg (by simpa using constant)]
      rfl
    · have notGround := mt ground.mp constant
      rw [isMeant, if_neg notGround, if_pos (by simpa using constant)]
      rfl
  apply ((TermSource.toTerms_elaborates described 0).bind fun _ => .lift checked).leaving
  intro right
  obtain ⟨-, arity⟩ := List.append_eq_nil_iff.mp right
  obtain ⟨-, constant⟩ := List.append_eq_nil_iff.mp arity
  rw [inconstant, ite_eq_right_iff] at constant
  rw [Nat.zero_add]
  apply underscores_eq_zero
  intro bare member isVariable
  cases constant ⟨bare, member, isVariable⟩

theorem addFacts_elaborates (declares : program.relation? = symbol?) {name : String}
    {symbol : RelationSymbol} (found : symbol? name = some symbol)
    (facts : List (List TermSource)) :
    Elaborates (addFacts symbol program facts) 0 (facts.flatMap (factViolations symbol? name))
      { program with facts := program.facts ++ facts.map (factMeant symbol? name) } 0 := by
  induction facts generalizing program with
  | nil =>
      rw [List.map_nil, List.append_nil]
      exact .pure program
  | cons described facts ih =>
      rw [addFacts, List.foldlM_cons, List.flatMap_cons, List.map_cons, List.append_cons]
      exact (addFact_elaborates declares found described).bind fun _ => ih declares

theorem addFactTable_elaborates (declares : program.relation? = symbol?)
    (entries : List (String × List (List TermSource))) :
    Elaborates (addFactTable program entries) 0 (entries.flatMap (entryViolations symbol?))
      { program with facts := program.facts ++ entries.flatMap (factsMeant symbol?) } 0 := by
  induction entries generalizing program with
  | nil =>
      rw [List.flatMap_nil, List.flatMap_nil, List.append_nil]
      exact .pure program
  | cons entry entries ih =>
      rw [addFactTable, List.foldlM_cons, List.flatMap_cons, List.flatMap_cons, ← List.append_assoc]
      apply Elaborates.bind
      · apply (findRelation_elaborates declares entry.1 0 0).bind
        intro right
        obtain ⟨symbol, found⟩ := exists_of_undeclared_eq_nil right
        rw [found]
        exact addFacts_elaborates declares found entry.2
      · exact fun _ => ih declares

theorem addRule_elaborates (declares : program.relation? = symbol?) (rule : RuleSource) :
    Elaborates (do program.addRule (← rule.toRule program)) before (rule.violations symbol?)
      { program with rules := program.rules ++ [rule.meant symbol? before] }
      (before + underscores rule.terms) := by
  apply (rule.toRule_elaborates declares before).bind
  intro right
  obtain ⟨head, body⟩ := List.append_eq_nil_iff.mp right
  apply Elaborates.lift
  rw [Program.addRule, RuleSource.meant, checkAtom_eq declares head]
  apply unlessViolated_bind
  intro
  rw [checkBody_eq declares body]
  exact unlessViolated_map _

theorem addRules_elaborates (declares : program.relation? = symbol?) (before : Nat)
    (rules : List RuleSource) :
    Elaborates (addRules program rules) before (rules.flatMap (RuleSource.violations symbol?))
      { program with
        rules := program.rules ++
          readInTurn RuleSource.terms (RuleSource.meant symbol?) before rules }
      (before + underscores (rules.flatMap RuleSource.terms)) := by
  induction rules generalizing program before with
  | nil =>
      rw [List.flatMap_nil, List.flatMap_nil, readInTurn, List.append_nil, underscores_nil]
      exact .pure program
  | cons rule rules ih =>
      rw [addRules, List.foldlM_cons, List.flatMap_cons, List.flatMap_cons, readInTurn,
        List.append_cons, underscores_append, ← Nat.add_assoc]
      apply (addRule_elaborates declares rule).bind
      intro
      apply ih
      exact declares

theorem addQuery_elaborates (declares : program.relation? = symbol?) (unset : program.query = none)
    (before : Nat) (query : Option AtomSource) :
    Elaborates (addQuery program query) before (query.toList.flatMap (queryViolations symbol?))
      { program with query := query.map (AtomSource.meant symbol? before) }
      (before + underscores (query.toList.flatMap (·.args))) := by
  cases query with
  | none =>
      rw [Option.map_none, ← unset]
      exact .pure program
  | some query =>
      simp only [Option.toList_some, List.flatMap_singleton]
      apply (query.toAtom_elaborates declares before).bind
      intro right
      apply Elaborates.lift
      rw [Program.setQuery, checkAtom_eq declares right]
      exact unlessViolated_map _

end Uses

/-! ## Whole programs -/

namespace ProgramSource

variable (source : ProgramSource)

/-- The declared relation of each name. -/
def symbol? : Declarations :=
  declarationsOf source.relations

/-- All that is wrong with a description: declarations, then facts by name, then rules, then the
query. -/
def violations : List ProgramError :=
  source.relations.flatMap (redeclared source.symbol?) ++
    (source.facts.entries.flatMap (entryViolations source.symbol?) ++
      (source.rules.flatMap (RuleSource.violations source.symbol?) ++
        source.query.toList.flatMap (queryViolations source.symbol?)))

/-- The program that a description means. -/
def meant : Program where
  relations := (source.relations.map RelationDecl.symbol).eraseDups
  facts := source.facts.entries.flatMap (factsMeant source.symbol?)
  rules := readInTurn RuleSource.terms (RuleSource.meant source.symbol?) 0 source.rules
  query := source.query.map
    (AtomSource.meant source.symbol? (underscores (source.rules.flatMap RuleSource.terms)))

/-- The pass gives what is meant, or the first violation. -/
theorem toProgram_eq : source.toProgram = unlessViolated source.violations source.meant := by
  rw [toProgram, declareAll_eq]
  apply unlessViolated_bind
  intro
  have declares := relation?_declaring source.relations
  have rules := addRules_elaborates
    (show ({ declaring source.relations with facts := source.meant.facts } : Program).relation? = _
      from declares) 0 source.rules
  rw [Nat.zero_add] at rules
  have query := addQuery_elaborates
    (show ({ source.meant with query := none } : Program).relation? = _ from declares) rfl
    (underscores (source.rules.flatMap RuleSource.terms)) source.query
  apply Elaborates.outcome_eq
  apply (addFactTable_elaborates declares source.facts.entries).bind
  exact fun _ => rules.bind fun _ => query

theorem toProgram_eq_ok {program : Program} :
    source.toProgram = .ok program ↔ source.violations = [] ∧ source.meant = program := by
  rw [toProgram_eq, unlessViolated_eq_ok]

end ProgramSource

/-! ## Well-formed descriptions -/

def LiteralSource.atom? : LiteralSource → Option AtomSource
  | .eq .. | .neq .. => none
  | .atom described => some described

/-- The head and the atoms of the body. -/
def RuleSource.atoms (rule : RuleSource) : List AtomSource :=
  rule.head :: rule.body.filterMap LiteralSource.atom?

namespace ProgramSource

/-- The atoms of the rules and of the query. -/
def atoms (source : ProgramSource) : List AtomSource :=
  source.rules.flatMap RuleSource.atoms ++ source.query.toList

/-- The terms of the rules and of the query, in the order in which underscores are numbered. -/
def ruleTerms (source : ProgramSource) : List TermSource :=
  source.rules.flatMap RuleSource.terms ++ source.query.toList.flatMap (·.args)

/-- The bare names of the facts, the rules and the query. -/
def names (source : ProgramSource) : List String :=
  source.facts.entries.flatMap (fun entry => entry.2.flatMap TermSource.namesOfList) ++
    TermSource.namesOfList source.ruleTerms

end ProgramSource

/-- Whether a relation of this name is declared. -/
def Declared (relations : List RelationDecl) (name : String) : Prop :=
  ∃ relation ∈ relations, relation.name = name

/-- Whether every declaration of this name asks for as many arguments as these. -/
def Fits (relations : List RelationDecl) (name : String) (args : List TermSource) : Prop :=
  ∀ relation ∈ relations, relation.name = name → args.length = relation.arity.toNat

/-- No relation name is declared with two arities, what is used is declared and has the right number
of arguments, facts have no variables, and no bare name is empty. -/
structure ProgramSource.WellFormed (source : ProgramSource) : Prop where
  consistent : ∀ first ∈ source.relations, ∀ second ∈ source.relations,
    first.name = second.name → first.arity = second.arity
  declared_facts : ∀ entry ∈ source.facts.entries, Declared source.relations entry.1
  declared : ∀ atom ∈ source.atoms, Declared source.relations atom.rel
  fits_facts : ∀ entry ∈ source.facts.entries, ∀ args ∈ entry.2,
    Fits source.relations entry.1 args
  fits : ∀ atom ∈ source.atoms, Fits source.relations atom.rel atom.args
  constant : ∀ entry ∈ source.facts.entries, ∀ args ∈ entry.2,
    ∀ bare ∈ TermSource.namesOfList args, ¬IsVariable bare
  named : "" ∉ source.names

section WellFormed

variable {relations : List RelationDecl}

theorem unnamed_eq_nil {terms : List TermSource} :
    unnamed terms = [] ↔ "" ∉ TermSource.namesOfList terms := by
  rw [unnamed, List.map_eq_nil_iff, List.filter_eq_nil_iff]
  constructor
  · exact fun named empty => named "" empty (by simp)
  · exact fun named bare member => by simpa using ne_of_mem_of_not_mem member named

theorem undeclared_eq_nil {name : String} :
    undeclared (declarationsOf relations) name = [] ↔ Declared relations name := by
  constructor
  · intro right
    obtain ⟨symbol, found⟩ := exists_of_undeclared_eq_nil right
    obtain ⟨relation, member, named, -⟩ := declarationsOf_eq_some found
    exact ⟨relation, member, named⟩
  · rintro ⟨relation, member, named⟩
    have found : (declarationsOf relations name).isSome := by
      rw [declarationsOf, Option.isSome_map, List.find?_isSome]
      exact ⟨relation, member, by simpa using named⟩
    obtain ⟨symbol, found⟩ := Option.isSome_iff_exists.mp found
    rw [undeclared, found]

/-- The first declaration of a name stands for all of them if none is at odds with it. -/
theorem redeclared_eq_nil {relation : RelationDecl} (member : relation ∈ relations) :
    redeclared (declarationsOf relations) relation = [] ↔
      declarationsOf relations relation.name = some relation.symbol := by
  obtain ⟨symbol, found⟩ :=
    exists_of_undeclared_eq_nil (undeclared_eq_nil.mpr ⟨relation, member, rfl⟩)
  obtain ⟨first, -, named, rfl⟩ := declarationsOf_eq_some found
  rw [redeclared, found]
  simp [RelationDecl.symbol, named]

theorem flatMap_redeclared_eq_nil :
    relations.flatMap (redeclared (declarationsOf relations)) = [] ↔
      ∀ first ∈ relations, ∀ second ∈ relations,
        first.name = second.name → first.arity = second.arity := by
  rw [List.flatMap_eq_nil_iff]
  constructor
  · intro right first isFirst second isSecond named
    have one := (redeclared_eq_nil isFirst).mp (right first isFirst)
    have other := (redeclared_eq_nil isSecond).mp (right second isSecond)
    rw [← named, one, Option.some.injEq] at other
    exact UInt64.toNat_inj.mp (congrArg RelationSymbol.arity other)
  · intro consistent relation member
    obtain ⟨symbol, found⟩ :=
      exists_of_undeclared_eq_nil (undeclared_eq_nil.mpr ⟨relation, member, rfl⟩)
    obtain ⟨first, isFirst, named, rfl⟩ := declarationsOf_eq_some found
    rw [redeclared_eq_nil member, found, RelationDecl.symbol, RelationDecl.symbol, named,
      consistent first isFirst relation member named]

theorem misapplied_eq_nil
    (right : relations.flatMap (redeclared (declarationsOf relations)) = []) {name : String}
    {args : List TermSource} :
    misapplied (declarationsOf relations) name args = [] ↔ Fits relations name args := by
  constructor
  · rintro applied relation member rfl
    have found := (redeclared_eq_nil member).mp (List.flatMap_eq_nil_iff.mp right relation member)
    rw [misapplied, found] at applied
    by_contra different
    exact List.cons_ne_nil _ _ ((if_neg different).symm.trans applied)
  · intro fits
    rw [misapplied]
    cases found : declarationsOf relations name with
    | none => rfl
    | some symbol =>
        obtain ⟨relation, member, named, rfl⟩ := declarationsOf_eq_some found
        exact if_pos (fits relation member named)

theorem inconstant_eq_nil {symbol? : Declarations} {name : String} {args : List TermSource} :
    inconstant symbol? name args = [] ↔ ∀ bare ∈ TermSource.namesOfList args, ¬IsVariable bare := by
  simp [inconstant]

theorem AtomSource.violations_eq_nil {atom : AtomSource} :
    atom.violations (declarationsOf relations) = [] ↔
      Declared relations atom.rel ∧ "" ∉ TermSource.namesOfList atom.args := by
  rw [violations, List.append_eq_nil_iff, undeclared_eq_nil, unnamed_eq_nil]

theorem LiteralSource.violations_eq_nil {literal : LiteralSource} :
    literal.violations (declarationsOf relations) = [] ↔
      (∀ atom ∈ literal.atom?, Declared relations atom.rel) ∧
        "" ∉ TermSource.namesOfList literal.terms := by
  cases literal with
  | eq lhs rhs | neq lhs rhs => simp [violations, atom?, terms, unnamed_eq_nil]
  | atom described => simp [violations, atom?, terms, AtomSource.violations_eq_nil]

theorem LiteralSource.misapplied_eq_nil
    (right : relations.flatMap (redeclared (declarationsOf relations)) = [])
    {literal : LiteralSource} :
    literal.misapplied (declarationsOf relations) = [] ↔
      ∀ atom ∈ literal.atom?, Fits relations atom.rel atom.args := by
  cases literal with
  | eq lhs rhs | neq lhs rhs => simp [misapplied, atom?]
  | atom described => simp [misapplied, atom?, Source.misapplied_eq_nil right]

theorem RuleSource.forall_mem_atoms {holds : AtomSource → Prop} {rule : RuleSource} :
    (∀ atom ∈ rule.atoms, holds atom) ↔
      holds rule.head ∧ ∀ literal ∈ rule.body, ∀ atom ∈ literal.atom?, holds atom := by
  rw [atoms, List.forall_mem_cons]
  refine and_congr_right fun _ => ?_
  constructor
  · exact fun all literal inBody atom isAtom =>
      all atom (List.mem_filterMap.mpr ⟨literal, inBody, isAtom⟩)
  · intro all atom member
    obtain ⟨literal, inBody, isAtom⟩ := List.mem_filterMap.mp member
    exact all literal inBody atom isAtom

theorem RuleSource.notMem_names {bare : String} {rule : RuleSource} :
    bare ∉ TermSource.namesOfList rule.terms ↔
      bare ∉ TermSource.namesOfList rule.head.args ∧
        ∀ literal ∈ rule.body, bare ∉ TermSource.namesOfList literal.terms := by
  simp only [terms, TermSource.mem_namesOfList, List.mem_append, List.mem_flatMap]
  grind

theorem RuleSource.violations_eq_nil
    (right : relations.flatMap (redeclared (declarationsOf relations)) = []) {rule : RuleSource} :
    rule.violations (declarationsOf relations) = [] ↔
      (∀ atom ∈ rule.atoms, Declared relations atom.rel) ∧
        (∀ atom ∈ rule.atoms, Fits relations atom.rel atom.args) ∧
          "" ∉ TermSource.namesOfList rule.terms := by
  simp only [violations, List.append_eq_nil_iff, List.flatMap_eq_nil_iff,
    AtomSource.violations_eq_nil, LiteralSource.violations_eq_nil, Source.misapplied_eq_nil right,
    LiteralSource.misapplied_eq_nil right, forall_mem_atoms, notMem_names, forall₂_and]
  tauto

theorem queryViolations_eq_nil
    (right : relations.flatMap (redeclared (declarationsOf relations)) = []) {query : AtomSource} :
    queryViolations (declarationsOf relations) query = [] ↔
      Declared relations query.rel ∧ Fits relations query.rel query.args ∧
        "" ∉ TermSource.namesOfList query.args := by
  rw [queryViolations, List.append_eq_nil_iff, AtomSource.violations_eq_nil,
    misapplied_eq_nil right]
  tauto

theorem entryViolations_eq_nil
    (right : relations.flatMap (redeclared (declarationsOf relations)) = [])
    {entry : String × List (List TermSource)} :
    entryViolations (declarationsOf relations) entry = [] ↔
      Declared relations entry.1 ∧ ∀ args ∈ entry.2, Fits relations entry.1 args ∧
        (∀ bare ∈ TermSource.namesOfList args, ¬IsVariable bare) ∧
          "" ∉ TermSource.namesOfList args := by
  rw [entryViolations, List.append_eq_nil_iff, undeclared_eq_nil, List.flatMap_eq_nil_iff]
  refine and_congr_right fun _ => forall_congr' fun args => imp_congr_right fun _ => ?_
  rw [factViolations, List.append_eq_nil_iff, List.append_eq_nil_iff, unnamed_eq_nil,
    misapplied_eq_nil right, inconstant_eq_nil]
  tauto

end WellFormed

namespace ProgramSource

variable {source : ProgramSource}

theorem notMem_names {bare : String} :
    bare ∉ source.names ↔
      (∀ entry ∈ source.facts.entries, ∀ args ∈ entry.2, bare ∉ TermSource.namesOfList args) ∧
        (∀ rule ∈ source.rules, bare ∉ TermSource.namesOfList rule.terms) ∧
          ∀ query ∈ source.query, bare ∉ TermSource.namesOfList query.args := by
  simp only [names, ruleTerms, TermSource.namesOfList_append, List.mem_append, List.mem_flatMap,
    TermSource.mem_namesOfList, Option.mem_toList, Option.mem_def]
  grind

theorem forall_mem_atoms {holds : AtomSource → Prop} :
    (∀ atom ∈ source.atoms, holds atom) ↔
      (∀ rule ∈ source.rules, ∀ atom ∈ rule.atoms, holds atom) ∧
        ∀ query ∈ source.query, holds query := by
  simp only [atoms, List.mem_append, List.mem_flatMap, Option.mem_toList, Option.mem_def]
  grind

/-- Nothing is wrong exactly with the descriptions that are well formed. -/
theorem violations_eq_nil : source.violations = [] ↔ source.WellFormed := by
  rw [violations, List.append_eq_nil_iff, List.append_eq_nil_iff, List.append_eq_nil_iff]
  constructor
  · rintro ⟨right, facts, rules, query⟩
    simp only [symbol?, List.flatMap_eq_nil_iff, entryViolations_eq_nil right,
      RuleSource.violations_eq_nil right, queryViolations_eq_nil right, Option.mem_toList]
      at facts rules query
    exact {
      consistent := flatMap_redeclared_eq_nil.mp right
      declared_facts := fun entry member => (facts entry member).1
      declared := forall_mem_atoms.mpr ⟨fun rule member => (rules rule member).1,
        fun described isQuery => (query described isQuery).1⟩
      fits_facts := fun entry member args inEntry => ((facts entry member).2 args inEntry).1
      fits := forall_mem_atoms.mpr ⟨fun rule member => (rules rule member).2.1,
        fun described isQuery => (query described isQuery).2.1⟩
      constant := fun entry member args inEntry => ((facts entry member).2 args inEntry).2.1
      named := notMem_names.mpr ⟨fun entry member args inEntry =>
          ((facts entry member).2 args inEntry).2.2,
        fun rule member => (rules rule member).2.2,
        fun described isQuery => (query described isQuery).2.2⟩ }
  · intro wellFormed
    have right := flatMap_redeclared_eq_nil.mpr wellFormed.consistent
    have declared := forall_mem_atoms.mp wellFormed.declared
    have fits := forall_mem_atoms.mp wellFormed.fits
    have named := notMem_names.mp wellFormed.named
    simp only [symbol?, List.flatMap_eq_nil_iff, entryViolations_eq_nil right,
      RuleSource.violations_eq_nil right, queryViolations_eq_nil right, Option.mem_toList]
    refine ⟨List.flatMap_eq_nil_iff.mp right, fun entry member => ?_, fun rule member => ?_,
      fun described isQuery => ?_⟩
    · exact ⟨wellFormed.declared_facts entry member, fun args inEntry =>
        ⟨wellFormed.fits_facts entry member args inEntry,
          wellFormed.constant entry member args inEntry, named.1 entry member args inEntry⟩⟩
    · exact ⟨declared.1 rule member, fits.1 rule member, named.2.1 rule member⟩
    · exact ⟨declared.2 described isQuery, fits.2 described isQuery, named.2.2 described isQuery⟩

def factsOf (source : ProgramSource) (name : String) : List (List TermSource) :=
  (source.facts.entries.lookup name).getD []

/-- A program is described: its relations are the declared ones without repetition, each has the
listed facts, and its rules and its query are those that are meant, term by term. -/
structure Describes (source : ProgramSource) (program : Program) : Prop where
  relations : program.relations = (source.relations.map RelationDecl.symbol).eraseDups
  facts : ∀ symbol ∈ program.relations,
    program.factsFor symbol = (source.factsOf symbol.name).map (TermSource.meantList 0)
  declared : ∀ fact ∈ program.facts, fact.symbol ∈ program.relations
  rules : program.rules = readInTurn RuleSource.terms (RuleSource.meant source.symbol?) 0 source.rules
  query : program.query = source.query.map
    (AtomSource.meant source.symbol? (underscores (source.rules.flatMap RuleSource.terms)))

/-- A name stands for the first declaration of it, which agrees with the others. -/
theorem WellFormed.symbol?_eq (wellFormed : source.WellFormed) {relation : RelationDecl}
    (member : relation ∈ source.relations) :
    source.symbol? relation.name = some relation.symbol := by
  have right := flatMap_redeclared_eq_nil.mpr wellFormed.consistent
  exact (redeclared_eq_nil member).mp (List.flatMap_eq_nil_iff.mp right relation member)

/-- The facts under a name are those of the relation that the name stands for. -/
theorem WellFormed.filter_factsMeant (wellFormed : source.WellFormed) {relation : RelationDecl}
    (member : relation ∈ source.relations) {entry : String × List (List TermSource)}
    (listed : entry ∈ source.facts.entries) :
    ((factsMeant source.symbol? entry).filter (·.symbol = relation.symbol)).map (·.args) =
      if entry.1 = relation.name then entry.2.map (TermSource.meantList 0) else [] := by
  obtain ⟨own, isOwn, named⟩ := wellFormed.declared_facts entry listed
  have found : source.symbol? entry.1 = some own.symbol := by
    rw [← named]
    exact wellFormed.symbol?_eq isOwn
  rw [factsMeant, List.filter_map, List.map_map]
  split
  · next same =>
      have sameSymbol : own.symbol = relation.symbol := by
        rw [same, wellFormed.symbol?_eq member, Option.some.injEq] at found
        exact found.symm
      rw [List.filter_eq_self.mpr]
      · rfl
      · intro args _
        simp [factMeant, found, sameSymbol]
  · next different =>
      have otherSymbol : own.symbol ≠ relation.symbol := by
        intro same
        exact different (named.symm.trans (congrArg RelationSymbol.name same))
      rw [List.filter_eq_nil_iff.mpr, List.map_nil]
      intro args _
      simp [factMeant, found, otherSymbol]

/-- In a sorted table at most one entry has a given name. -/
theorem flatMap_of_isSorted {α β : Type} {entries : List (String × α)} (sorted : IsSorted entries)
    (name : String) (give : α → List β) :
    (entries.flatMap fun entry => if entry.1 = name then give entry.2 else []) =
      ((entries.lookup name).map give).getD [] := by
  induction entries with
  | nil => rfl
  | cons entry entries ih =>
      obtain ⟨below, sortedTail⟩ := List.pairwise_cons.mp sorted
      rw [List.flatMap_cons, List.lookup_cons]
      by_cases same : entry.1 = name
      · have behind : (entries.flatMap fun other => if other.1 = name then give other.2 else []) =
            [] := by
          apply List.flatMap_eq_nil_iff.mpr
          intro other member
          apply if_neg
          rw [← same]
          exact (Std.ne_of_lt (below other member)).symm
        rw [if_pos same, behind, List.append_nil]
        simp [same]
      · have other : (name == entry.1) = false := by simpa using Ne.symm same
        rw [if_neg same, List.nil_append, ih sortedTail, other]

/-- What a well-formed description means is described by it. -/
theorem describes_meant (wellFormed : source.WellFormed) : source.Describes source.meant where
  relations := rfl
  facts := by
    intro symbol member
    rw [meant, List.mem_eraseDups] at member
    obtain ⟨relation, isRelation, rfl⟩ := List.mem_map.mp member
    have listed := List.flatMap_congr fun _ => wellFormed.filter_factsMeant isRelation
    rw [Program.factsFor, meant, List.filter_flatMap, List.map_flatMap, listed,
      flatMap_of_isSorted source.facts.sorted, factsOf]
    change _ = ((source.facts.entries.lookup relation.name).getD []).map _
    cases source.facts.entries.lookup relation.name <;> rfl
  declared := by
    intro fact member
    obtain ⟨entry, listed, inEntry⟩ := List.mem_flatMap.mp member
    obtain ⟨args, -, rfl⟩ := List.mem_map.mp inEntry
    obtain ⟨relation, isRelation, named⟩ := wellFormed.declared_facts entry listed
    rw [meant, List.mem_eraseDups, factMeant, ← named, wellFormed.symbol?_eq isRelation]
    exact List.mem_map_of_mem isRelation
  rules := rfl
  query := rfl

/-- A description is accepted exactly if it is well formed.  Then the program is the one that is
described, and otherwise the error is the first of its violations. -/
theorem toProgram_decides (source : ProgramSource) :
    ((∃ program, source.toProgram = .ok program) ↔ source.WellFormed) ∧
      (∀ program, source.toProgram = .ok program → source.Describes program) ∧
        ∀ error, source.toProgram = .error error ↔ source.violations.head? = some error := by
  refine ⟨?_, ?_, fun error => ?_⟩
  · simp only [toProgram_eq_ok, violations_eq_nil, exists_and_left, exists_eq', and_true]
  · intro program accepted
    obtain ⟨right, rfl⟩ := (toProgram_eq_ok source).mp accepted
    exact describes_meant (violations_eq_nil.mp right)
  · rw [toProgram_eq, unlessViolated_eq_error]

end ProgramSource

end Source
end Datalog
