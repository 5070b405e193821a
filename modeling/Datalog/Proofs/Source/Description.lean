import Datalog.Proofs.Program.Calls
import Datalog.Source.Elaborate

/-!
# What a description means

A description means the same program whichever way it is read: a bare name is a variable or a
constructor by its first letter, and an underscore is numbered by the underscores in front of it.
What may be wrong with it is a list, in the order in which the parts are read.  Every step of the pass
from descriptions to programs gives what is meant, or the first thing that is wrong.
-/

namespace Datalog
namespace Source

/-! ## Bare names -/

mutual

/-- The bare names of a term, from left to right. -/
def TermSource.names : TermSource → List String
  | .bool _ | .int _ | .str _ => []
  | .name bare => [bare]
  | .ctor _ args | .call _ args => TermSource.namesOfList args

def TermSource.namesOfList : List TermSource → List String
  | [] => []
  | term :: terms => term.names ++ TermSource.namesOfList terms

end

/-- The terms of an equation, or the arguments of an atom. -/
def LiteralSource.terms : LiteralSource → List TermSource
  | .eq lhs rhs | .neq lhs rhs => [lhs, rhs]
  | .atom described => described.args

/-- The terms of a rule, from left to right. -/
def RuleSource.terms (rule : RuleSource) : List TermSource :=
  rule.head.args ++ rule.body.flatMap LiteralSource.terms

/-- How many underscores stand in terms. -/
def underscores (terms : List TermSource) : Nat :=
  (TermSource.namesOfList terms).count "_"

/-- Whether a bare name is that of a variable, as the underscore is. -/
def IsVariable (bare : String) : Prop :=
  bare.toList.head?.any startsVariable = true

instance (bare : String) : Decidable (IsVariable bare) :=
  inferInstanceAs (Decidable (_ = true))

@[simp]
theorem TermSource.namesOfList_nil : namesOfList [] = [] := by
  rw [namesOfList]

theorem TermSource.namesOfList_append (terms others : List TermSource) :
    namesOfList (terms ++ others) = namesOfList terms ++ namesOfList others := by
  induction terms with
  | nil => rw [namesOfList_nil, List.nil_append, List.nil_append]
  | cons term terms ih => rw [List.cons_append, namesOfList, namesOfList, ih, List.append_assoc]

theorem TermSource.mem_namesOfList {bare : String} {terms : List TermSource} :
    bare ∈ namesOfList terms ↔ ∃ term ∈ terms, bare ∈ term.names := by
  induction terms with
  | nil => simp
  | cons term terms ih => simp [namesOfList, ih]

@[simp]
theorem underscores_nil : underscores [] = 0 := by
  simp [underscores]

theorem underscores_singleton (term : TermSource) : underscores [term] = term.names.count "_" := by
  simp [underscores, TermSource.namesOfList]

theorem underscores_cons (term : TermSource) (terms : List TermSource) :
    underscores (term :: terms) = underscores [term] + underscores terms := by
  simp [underscores, TermSource.namesOfList]

theorem underscores_append (terms others : List TermSource) :
    underscores (terms ++ others) = underscores terms + underscores others := by
  simp [underscores, TermSource.namesOfList_append]

theorem underscores_eq_zero {terms : List TermSource}
    (constant : ∀ bare ∈ TermSource.namesOfList terms, ¬IsVariable bare) :
    underscores terms = 0 :=
  List.count_eq_zero.mpr fun member => constant "_" member (by decide)

/-! ## The meaning of a description -/

def anonymousName (index : Nat) : String :=
  "_#" ++ toString index

/-- The term that a bare name means, with `before` underscores in front of it. -/
def meantByName (before : Nat) (bare : String) : Term :=
  if bare = "_" then .var (anonymousName (before + 1))
  else if IsVariable bare then .var bare
  else .ctor bare []

mutual

/-- The term that is meant, with `before` underscores in front of it. -/
def TermSource.meant (before : Nat) : TermSource → Term
  | .bool value => .bool value
  | .int value => .int value
  | .name bare => meantByName before bare
  | .str value => .str value
  | .ctor constructor args => .ctor constructor (TermSource.meantList before args)
  | .call function args => .call function (TermSource.meantList before args)

def TermSource.meantList (before : Nat) : List TermSource → List Term
  | [] => []
  | term :: terms =>
      term.meant before :: TermSource.meantList (before + underscores [term]) terms

end

/-- Read items in their order, each with the number of underscores in front of it. -/
def readInTurn {α β : Type} (terms : α → List TermSource) (read : Nat → α → β) :
    Nat → List α → List β
  | _, [] => []
  | before, item :: items =>
      read before item :: readInTurn terms read (before + underscores (terms item)) items

/-- The declared relation of each name. -/
abbrev Declarations := String → Option RelationSymbol

section Meaning

variable (symbol? : Declarations)

/-- The atom that is meant; a relation that is not declared is taken as it is used. -/
def AtomSource.meant (before : Nat) (atom : AtomSource) : Atom where
  symbol := (symbol? atom.rel).getD { name := atom.rel, arity := atom.args.length }
  args := TermSource.meantList before atom.args
  negated := atom.negated

def LiteralSource.meant (before : Nat) : LiteralSource → Literal
  | .eq lhs rhs => .unification (lhs.meant before) (rhs.meant (before + underscores [lhs])) false
  | .neq lhs rhs => .unification (lhs.meant before) (rhs.meant (before + underscores [lhs])) true
  | .atom described => .predicate (described.meant symbol? before)

def RuleSource.meant (before : Nat) (rule : RuleSource) : Rule where
  head := rule.head.meant symbol? before
  body := readInTurn LiteralSource.terms (LiteralSource.meant symbol?)
    (before + underscores rule.head.args) rule.body

/-- The fact that is meant by the arguments under a name; it has no variables to be numbered. -/
def factMeant (name : String) (args : List TermSource) : Fact where
  symbol := (symbol? name).getD { name, arity := args.length }
  args := TermSource.meantList 0 args

def factsMeant (entry : String × List (List TermSource)) : List Fact :=
  entry.2.map (factMeant symbol? entry.1)

end Meaning

/-- The names of variables among bare names, with each underscore numbered. -/
def numbered : Nat → List String → List String
  | _, [] => []
  | before, bare :: names =>
      if bare = "_" then anonymousName (before + 1) :: numbered (before + 1) names
      else if IsVariable bare then bare :: numbered before names
      else numbered before names

theorem numbered_append (before : Nat) (names others : List String) :
    numbered before (names ++ others) =
      numbered before names ++ numbered (before + names.count "_") others := by
  induction names generalizing before with
  | nil => rfl
  | cons bare names ih =>
      rw [List.cons_append, numbered, numbered, ih, ih, List.count_cons]
      by_cases underscore : bare = "_"
      · rw [if_pos underscore, if_pos underscore, List.cons_append]
        simp [underscore, ← Nat.add_assoc, Nat.add_right_comm before 1]
      · rw [if_neg underscore, if_neg underscore]
        split <;> simp [underscore]

theorem numbered_eq_nil {before : Nat} {names : List String} :
    numbered before names = [] ↔ ∀ bare ∈ names, ¬IsVariable bare := by
  induction names with
  | nil => simp [numbered]
  | cons bare names ih =>
      rw [numbered, List.forall_mem_cons, ← ih]
      split
      · next underscore =>
          have isVariable : IsVariable bare := by
            rw [underscore]
            decide
          simp [isVariable]
      · split
        · next isVariable => simp [isVariable]
        · next notVariable => simp [notVariable]

mutual

theorem TermSource.vars_meant : (term : TermSource) → (before : Nat) →
    (term.meant before).vars = numbered before term.names
  | .bool _, _ | .int _, _ | .str _, _ => rfl
  | .name bare, before => by
      rw [meant, meantByName, names, numbered, numbered, numbered]
      split
      · rfl
      · split <;> rfl
  | .ctor _ args, before | .call _ args, before => by
      rw [meant, names, Term.vars]
      exact varsList_meantList args before

/-- What is meant has the variables that are named, with the underscores numbered. -/
theorem TermSource.varsList_meantList : (terms : List TermSource) → (before : Nat) →
    Term.varsList (meantList before terms) = numbered before (namesOfList terms)
  | [], _ => rfl
  | term :: terms, before => by
      rw [meantList, Term.varsList, namesOfList, vars_meant term, varsList_meantList terms,
        numbered_append, underscores_singleton]

end

theorem TermSource.length_meantList (before : Nat) (terms : List TermSource) :
    (meantList before terms).length = terms.length := by
  induction terms generalizing before with
  | nil => rfl
  | cons term terms ih => rw [meantList, List.length_cons, ih, List.length_cons]

/-! ## What may be wrong -/

/-- One violation for each empty name. -/
def unnamed (terms : List TermSource) : List ProgramError :=
  ((TermSource.namesOfList terms).filter (· = "")).map fun _ => .emptyName

section Violations

variable (symbol? : Declarations)

/-- A violation if a name is not declared. -/
def undeclared (name : String) : List ProgramError :=
  match symbol? name with
  | some _ => []
  | none => [.unknownRelation name]

/-- A violation if a declared relation is used with another number of arguments. -/
def misapplied (name : String) (args : List TermSource) : List ProgramError :=
  match symbol? name with
  | some symbol =>
      if args.length = symbol.arity then []
      else [.arityMismatch name symbol.arity args.length]
  | none => []

/-- What is wrong with an atom, its arity apart. -/
def AtomSource.violations (atom : AtomSource) : List ProgramError :=
  undeclared symbol? atom.rel ++ unnamed atom.args

/-- What is wrong with a literal, its arity apart. -/
def LiteralSource.violations : LiteralSource → List ProgramError
  | .eq lhs rhs | .neq lhs rhs => unnamed [lhs, rhs]
  | .atom described => described.violations symbol?

/-- A violation if a literal has another number of arguments than its relation. -/
def LiteralSource.misapplied : LiteralSource → List ProgramError
  | .eq .. | .neq .. => []
  | .atom described => Source.misapplied symbol? described.rel described.args

/-- What is wrong with a rule: the names and terms of head and body come before the arities. -/
def RuleSource.violations (rule : RuleSource) : List ProgramError :=
  rule.head.violations symbol? ++ rule.body.flatMap (LiteralSource.violations symbol?) ++
    (misapplied symbol? rule.head.rel rule.head.args ++
      rule.body.flatMap (LiteralSource.misapplied symbol?))

/-- A violation if a fact has a variable. -/
def inconstant (name : String) (args : List TermSource) : List ProgramError :=
  if ∃ bare ∈ TermSource.namesOfList args, IsVariable bare then
    [.nonGroundFact (factMeant symbol? name args).toAtom]
  else []

/-- What is wrong with the arguments of a fact: its terms, its arity, its variables. -/
def factViolations (name : String) (args : List TermSource) : List ProgramError :=
  unnamed args ++ (misapplied symbol? name args ++ inconstant symbol? name args)

/-- What is wrong with the facts under a name. -/
def entryViolations (entry : String × List (List TermSource)) : List ProgramError :=
  undeclared symbol? entry.1 ++ entry.2.flatMap (factViolations symbol? entry.1)

/-- What is wrong with a query: its name, its terms, its arity. -/
def queryViolations (query : AtomSource) : List ProgramError :=
  query.violations symbol? ++ misapplied symbol? query.rel query.args

end Violations

/-- A violation if a relation has been declared with another arity first. -/
def redeclared (symbol? : Declarations) (relation : RelationDecl) : List ProgramError :=
  match symbol? relation.name with
  | some first =>
      if first.arity = relation.arity.toNat then []
      else [.duplicateRelation relation.name first.arity relation.arity.toNat]
  | none => []

def RelationDecl.symbol (relation : RelationDecl) : RelationSymbol where
  name := relation.name
  arity := relation.arity.toNat

/-- The first declaration of each name. -/
def declarationsOf (relations : List RelationDecl) : Declarations := fun name =>
  (relations.find? (·.name = name)).map RelationDecl.symbol

/-! ## The outcome of a step -/

/-- A value, unless there are violations; then the first of them. -/
def unlessViolated {α : Type} (violations : List ProgramError) (value : α) :
    Except ProgramError α :=
  match violations with
  | [] => .ok value
  | violation :: _ => .error violation

/-- Whether a step from the counter `before` meets these violations, and whether it gives `value` and
leaves the counter `after` if there are none. -/
def Elaborates {α : Type} (step : Elaborator α) (before : Nat) (violations : List ProgramError)
    (value : α) (after : Nat) : Prop :=
  step before = unlessViolated violations (value, after)

section Steps

variable {α β : Type} {before middle after : Nat} {violations others : List ProgramError}

theorem unlessViolated_bind {value : α} {next : α → Except ProgramError β} {result : β}
    (follows : violations = [] → next value = unlessViolated others result) :
    (unlessViolated violations value >>= next) = unlessViolated (violations ++ others) result := by
  cases violations with
  | nil => exact follows rfl
  | cons violation violations => rfl

theorem unlessViolated_map {value : α} (give : α → β) :
    (unlessViolated violations value >>= fun value => .ok (give value)) =
      unlessViolated violations (give value) := by
  cases violations <;> rfl

theorem unlessViolated_eq_ok {value result : α} :
    unlessViolated violations value = .ok result ↔ violations = [] ∧ value = result := by
  cases violations <;> simp [unlessViolated]

theorem unlessViolated_eq_error {value : α} {error : ProgramError} :
    unlessViolated violations value = .error error ↔ violations.head? = some error := by
  cases violations <;> simp [unlessViolated]

theorem Elaborates.pure (value : α) : Elaborates (pure value) before [] value before :=
  rfl

theorem Elaborates.bind {step : Elaborator α} {next : α → Elaborator β} {value : α} {result : β}
    (first : Elaborates step before violations value middle)
    (follows : violations = [] → Elaborates (next value) middle others result after) :
    Elaborates (step >>= next) before (violations ++ others) result after := by
  change (step before >>= fun given => next given.1 given.2) = _
  rw [first]
  exact unlessViolated_bind follows

theorem Elaborates.map {step : Elaborator α} {value : α} (give : α → β)
    (first : Elaborates step before violations value after) :
    Elaborates (step >>= fun value => Pure.pure (give value)) before violations (give value)
      after := by
  rw [← List.append_nil violations]
  exact first.bind fun _ => .pure (give value)

/-- The counter behind a step matters only if there are no violations. -/
theorem Elaborates.leaving {step : Elaborator α} {value : α}
    (done : Elaborates step before violations value middle)
    (same : violations = [] → middle = after) : Elaborates step before violations value after := by
  cases violations with
  | nil => rwa [← same rfl]
  | cons violation violations => exact done

theorem Elaborates.lift {outcome : Except ProgramError α} {value : α}
    (given : outcome = unlessViolated violations value) :
    Elaborates (liftM outcome) before violations value before := by
  change (outcome >>= fun value => .ok (value, before)) = _
  rw [given]
  cases violations <;> rfl

theorem Elaborates.outcome_eq {step : Elaborator α} {value : α}
    (done : Elaborates step before violations value after) :
    step.run' before = unlessViolated violations value := by
  change Prod.fst <$> step before = _
  rw [done]
  cases violations <;> rfl

theorem Elaborates.mapM {step : α → Elaborator β} {terms : α → List TermSource}
    {wrong : α → List ProgramError} {read : Nat → α → β}
    (each : ∀ item before,
      Elaborates (step item) before (wrong item) (read before item)
        (before + underscores (terms item)))
    (items : List α) (before : Nat) :
    Elaborates (items.mapM step) before (items.flatMap wrong)
      (readInTurn terms read before items) (before + underscores (items.flatMap terms)) := by
  induction items generalizing before with
  | nil =>
      rw [List.flatMap_nil, List.flatMap_nil, underscores_nil, Nat.add_zero, List.mapM_nil]
      exact .pure []
  | cons item items ih =>
      rw [List.mapM_cons, List.flatMap_cons, List.flatMap_cons, underscores_append,
        ← Nat.add_assoc]
      exact (each item before).bind fun _ => (ih _).map _

end Steps

/-! ## Terms -/

theorem termOfName_elaborates (bare : String) (before : Nat) :
    Elaborates (termOfName bare) before (unnamed [.name bare]) (meantByName before bare)
      (before + underscores [.name bare]) := by
  have shape : bare = String.ofList bare.toList := String.ofList_toList.symm
  unfold termOfName
  split
  · next empty =>
      obtain rfl : bare = "" := by rw [shape, empty]
      rfl
  · next single =>
      obtain rfl : bare = "_" := by rw [shape, single]
      rfl
  · next first rest notUnderscore isName =>
      have named : bare ≠ "" := by
        rintro rfl
        cases isName
      have notAlone : bare ≠ "_" := by
        rintro rfl
        obtain ⟨rfl, rfl⟩ := List.cons.inj isName
        exact notUnderscore rfl rfl
      have isVariable : IsVariable bare ↔ startsVariable first = true := by
        rw [IsVariable, isName]
        rfl
      have same : meantByName before bare =
          if startsVariable first then .var bare else .ctor bare [] := by
        rw [meantByName, if_neg notAlone]
        exact if_congr isVariable rfl rfl
      have none : underscores [.name bare] = 0 := by
        simp [underscores, TermSource.namesOfList, TermSource.names, notAlone]
      have right : unnamed [.name bare] = [] := by
        simp [unnamed, TermSource.namesOfList, TermSource.names, named]
      rw [same, none, right]
      exact .pure _

mutual

theorem TermSource.toTerm_elaborates : (term : TermSource) → (before : Nat) →
    Elaborates term.toTerm before (unnamed [term]) (term.meant before)
      (before + underscores [term])
  | .bool _, before | .int _, before | .str _, before => by
      rw [toTerm, meant]
      exact .pure _
  | .name bare, before => by
      rw [toTerm, meant]
      exact termOfName_elaborates bare before
  | .ctor constructor args, before => by
      have same : unnamed [.ctor constructor args] = unnamed args ∧
          underscores [.ctor constructor args] = underscores args := by
        simp [unnamed, underscores, namesOfList, names]
      rw [toTerm, meant, same.1, same.2]
      exact (toTerms_elaborates args before).map _
  | .call function args, before => by
      have same : unnamed [.call function args] = unnamed args ∧
          underscores [.call function args] = underscores args := by
        simp [unnamed, underscores, namesOfList, names]
      rw [toTerm, meant, same.1, same.2]
      exact (toTerms_elaborates args before).map _

theorem TermSource.toTerms_elaborates : (terms : List TermSource) → (before : Nat) →
    Elaborates (toTerms terms) before (unnamed terms) (meantList before terms)
      (before + underscores terms)
  | [], before => by
      rw [toTerms, meantList]
      exact .pure _
  | term :: terms, before => by
      have split : unnamed (term :: terms) = unnamed [term] ++ unnamed terms := by
        simp [unnamed, namesOfList]
      rw [toTerms, meantList, split, underscores_cons term terms, ← Nat.add_assoc]
      exact (toTerm_elaborates term before).bind fun _ => (toTerms_elaborates terms _).map _

end

/-! ## Atoms, literals and rules -/

section Rules

variable {program : Program} {symbol? : Declarations}

theorem findRelation_elaborates (declares : program.relation? = symbol?) (name : String)
    (arity before : Nat) :
    Elaborates (findRelation program name) before (undeclared symbol? name)
      ((symbol? name).getD { name, arity }) before := by
  rw [findRelation, declares, undeclared]
  cases symbol? name <;> rfl

theorem AtomSource.toAtom_elaborates (declares : program.relation? = symbol?) (atom : AtomSource)
    (before : Nat) :
    Elaborates (atom.toAtom program) before (atom.violations symbol?) (atom.meant symbol? before)
      (before + underscores atom.args) :=
  (findRelation_elaborates declares atom.rel atom.args.length before).bind fun _ =>
    (TermSource.toTerms_elaborates atom.args before).map _

theorem LiteralSource.toLiteral_elaborates (declares : program.relation? = symbol?)
    (literal : LiteralSource) (before : Nat) :
    Elaborates (literal.toLiteral program) before (literal.violations symbol?)
      (literal.meant symbol? before) (before + underscores literal.terms) := by
  have split : ∀ lhs rhs, unnamed [lhs, rhs] = unnamed [lhs] ++ unnamed [rhs] := by
    simp [unnamed, TermSource.namesOfList]
  cases literal with
  | eq lhs rhs | neq lhs rhs =>
      rw [toLiteral, violations, meant, terms, split, underscores_cons lhs [rhs], ← Nat.add_assoc]
      exact (lhs.toTerm_elaborates before).bind fun _ => (rhs.toTerm_elaborates _).map _
  | atom described => exact (described.toAtom_elaborates declares before).map _

theorem RuleSource.toRule_elaborates (declares : program.relation? = symbol?) (rule : RuleSource)
    (before : Nat) :
    Elaborates (rule.toRule program) before
      (rule.head.violations symbol? ++ rule.body.flatMap (LiteralSource.violations symbol?))
      (rule.meant symbol? before) (before + underscores rule.terms) := by
  rw [terms, underscores_append, ← Nat.add_assoc]
  exact (rule.head.toAtom_elaborates declares before).bind fun _ =>
    (Elaborates.mapM (LiteralSource.toLiteral_elaborates declares) rule.body _).map _

end Rules

end Source
end Datalog
