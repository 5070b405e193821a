import Datalog.Proofs.Planning.Renaming
import Datalog.Proofs.Source.Elaboration

/-!
# Underscores

The underscores of the rules and of the query are numbered, and the variable of number `k` is `_#k`.
Such a name may be written as well, and then the underscore stands for the variable that is written.
Replacing one underscore by a name moves the numbers behind it down by one; where none of the numbers
from there on has been written, this renames variables.
-/

namespace Datalog
namespace Source

/-! ## Numbers -/

theorem anonymousName_injective : anonymousName.Injective := fun _ _ same =>
  toString_injective ((String.append_right_inj "_#").mp same)

theorem isVariable_anonymousName (number : Nat) : IsVariable (anonymousName number) := by
  simp [IsVariable, anonymousName, String.toList_append, startsVariable]

theorem anonymousName_ne (number : Nat) : anonymousName number ≠ "_" := by
  intro same
  have letters := congrArg (·.toList.take 2) same
  simp [anonymousName, String.toList_append] at letters

/-- Among the variables, a numbered one occurs wherever it is written, and for its underscore. -/
theorem count_numbered (before number : Nat) (names : List String) :
    (numbered before names).count (anonymousName number) = names.count (anonymousName number) +
      if before < number ∧ number ≤ before + names.count "_" then 1 else 0 := by
  induction names generalizing before with
  | nil => simp [numbered]
  | cons bare names ih =>
      rw [numbered]
      split
      · next underscore =>
          subst underscore
          have written : ("_" == anonymousName number) = false := by
            simpa using (anonymousName_ne number).symm
          have own : (anonymousName (before + 1) == anonymousName number) =
              decide (before + 1 = number) := by
            rw [Bool.eq_iff_iff, beq_iff_eq, decide_eq_true_eq, anonymousName_injective.eq_iff]
          rw [List.count_cons, List.count_cons, List.count_cons, ih, written, own]
          simp only [beq_self_eq_true, if_true, decide_eq_true_eq, Bool.false_eq_true, if_false]
          grind
      · next notUnderscore =>
          split
          · rw [List.count_cons, List.count_cons, List.count_cons, ih]
            simp [notUnderscore]
            omega
          · next notVariable =>
              have different : bare ≠ anonymousName number := by
                rintro rfl
                exact notVariable (isVariable_anonymousName number)
              rw [List.count_cons_of_ne different, List.count_cons_of_ne notUnderscore, ih]

/-! ## Naming an underscore -/

section Naming

variable (name : String) (index : Nat)

mutual

/-- Write a name in place of the underscore number `index`, with `before` underscores in front. -/
def TermSource.naming (before : Nat) : TermSource → TermSource
  | .bool value => .bool value
  | .int value => .int value
  | .name bare => .name (if bare = "_" ∧ before + 1 = index then name else bare)
  | .str value => .str value
  | .ctor constructor args => .ctor constructor (TermSource.namingList before args)
  | .call function args => .call function (TermSource.namingList before args)

@[inherit_doc TermSource.naming]
def TermSource.namingList (before : Nat) : List TermSource → List TermSource
  | [] => []
  | term :: terms =>
      term.naming before :: TermSource.namingList (before + underscores [term]) terms

end

@[inherit_doc TermSource.naming]
def AtomSource.naming (before : Nat) (atom : AtomSource) : AtomSource :=
  { atom with args := TermSource.namingList name index before atom.args }

@[inherit_doc TermSource.naming]
def LiteralSource.naming (before : Nat) : LiteralSource → LiteralSource
  | .eq lhs rhs =>
      .eq (lhs.naming name index before) (rhs.naming name index (before + underscores [lhs]))
  | .neq lhs rhs =>
      .neq (lhs.naming name index before) (rhs.naming name index (before + underscores [lhs]))
  | .atom described => .atom (described.naming name index before)

@[inherit_doc TermSource.naming]
def RuleSource.naming (before : Nat) (rule : RuleSource) : RuleSource where
  head := rule.head.naming name index before
  body := readInTurn LiteralSource.terms (LiteralSource.naming name index)
    (before + underscores rule.head.args) rule.body

/-- Write a name in place of the underscore number `index` of the rules and the query. -/
def ProgramSource.naming (source : ProgramSource) : ProgramSource :=
  { source with
    rules := readInTurn RuleSource.terms (RuleSource.naming name index) 0 source.rules
    query := source.query.map
      (AtomSource.naming name index (underscores (source.rules.flatMap RuleSource.terms))) }

end Naming

section Naming

variable {name : String} {index : Nat}

namespace TermSource

theorem namingList_append (before : Nat) (terms others : List TermSource) :
    namingList name index before (terms ++ others) = namingList name index before terms ++
      namingList name index (before + underscores terms) others := by
  induction terms generalizing before with
  | nil => simp [namingList]
  | cons term terms ih =>
      rw [List.cons_append, namingList, namingList, ih, List.cons_append,
        underscores_cons term terms, Nat.add_assoc]

theorem length_namingList (before : Nat) (terms : List TermSource) :
    (namingList name index before terms).length = terms.length := by
  induction terms generalizing before with
  | nil => rfl
  | cons term terms ih => rw [namingList, List.length_cons, ih, List.length_cons]

end TermSource

/-- How many of the first `before` underscores are left without the one of number `index`. -/
def without (index before : Nat) : Nat :=
  if before < index then before else before - 1

theorem without_zero (positive : 0 < index) : without index 0 = 0 :=
  if_pos positive

mutual

theorem TermSource.underscores_naming (notUnderscore : name ≠ "_") (positive : 0 < index) :
    (term : TermSource) → (before : Nat) →
      without index before + underscores [term.naming name index before] =
        without index (before + underscores [term])
  | .bool _, _ | .int _, _ | .str _, _ => by
      simp [naming, underscores_singleton, names]
  | .name bare, before => by
      simp only [naming, underscores_singleton, names, without]
      grind
  | .ctor _ args, before | .call _ args, before => by
      have inside := underscores_namingList notUnderscore positive args before
      simpa [naming, underscores, namesOfList, names] using inside

/-- Underscores are counted as before, without the one that has been named. -/
theorem TermSource.underscores_namingList (notUnderscore : name ≠ "_") (positive : 0 < index) :
    (terms : List TermSource) → (before : Nat) →
      without index before + underscores (namingList name index before terms) =
        without index (before + underscores terms)
  | [], _ => by simp [namingList]
  | term :: terms, before => by
      rw [namingList, underscores_cons (term.naming name index before),
        underscores_cons term terms, ← Nat.add_assoc, ← Nat.add_assoc,
        underscores_naming notUnderscore positive term,
        underscores_namingList notUnderscore positive terms]

end

/-! ## What is wrong stays wrong -/

mutual

theorem TermSource.filter_names_naming (named : name ≠ "") : (term : TermSource) → (before : Nat) →
    (term.naming name index before).names.filter (· = "") = term.names.filter (· = "")
  | .bool _, _ | .int _, _ | .str _, _ => rfl
  | .name bare, before => by
      simp only [naming, names]
      split
      · next replaced => simp [named, replaced.1]
      · rfl
  | .ctor _ args, before | .call _ args, before => by
      rw [naming, names, names]
      exact filter_namesOfList_namingList named args before

theorem TermSource.filter_namesOfList_namingList (named : name ≠ "") :
    (terms : List TermSource) → (before : Nat) →
      (namesOfList (namingList name index before terms)).filter (· = "") =
        (namesOfList terms).filter (· = "")
  | [], _ => rfl
  | term :: terms, before => by
      rw [namingList, namesOfList, namesOfList, List.filter_append, List.filter_append,
        filter_names_naming named term, filter_namesOfList_namingList named terms]

end

theorem unnamed_namingList (named : name ≠ "") (before : Nat) (terms : List TermSource) :
    unnamed (TermSource.namingList name index before terms) = unnamed terms :=
  congrArg (List.map _) (TermSource.filter_namesOfList_namingList named terms before)

theorem LiteralSource.terms_naming (before : Nat) (literal : LiteralSource) :
    (literal.naming name index before).terms =
      TermSource.namingList name index before literal.terms := by
  cases literal with
  | eq lhs rhs | neq lhs rhs => simp [naming, terms, TermSource.namingList]
  | atom described => rfl

/-- What is read off each item in turn is read off all of them. -/
theorem flatMap_readInTurn {α β γ : Type} {terms : α → List TermSource} {read : Nat → α → β}
    {give : β → List γ} (giveAll : Nat → List TermSource → List γ)
    (nothing : ∀ before, giveAll before [] = [])
    (append : ∀ before items others, giveAll before (items ++ others) =
      giveAll before items ++ giveAll (before + underscores items) others)
    (each : ∀ before item, give (read before item) = giveAll before (terms item))
    (before : Nat) (items : List α) :
    (readInTurn terms read before items).flatMap give = giveAll before (items.flatMap terms) := by
  induction items generalizing before with
  | nil => rw [List.flatMap_nil, nothing, readInTurn, List.flatMap_nil]
  | cons item items ih =>
      rw [readInTurn, List.flatMap_cons, List.flatMap_cons, append, each, ih]

theorem RuleSource.terms_naming (before : Nat) (rule : RuleSource) :
    (rule.naming name index before).terms =
      TermSource.namingList name index before rule.terms := by
  rw [terms, terms, TermSource.namingList_append]
  exact congrArg _ (flatMap_readInTurn (TermSource.namingList name index) (fun _ => rfl)
    TermSource.namingList_append LiteralSource.terms_naming _ rule.body)

theorem flatMap_readInTurn_of_eq {α β γ : Type} {terms : α → List TermSource} {read : Nat → α → β}
    {give : β → List γ} {give' : α → List γ}
    (each : ∀ before item, give (read before item) = give' item) (before : Nat) (items : List α) :
    (readInTurn terms read before items).flatMap give = items.flatMap give' := by
  induction items generalizing before with
  | nil => rfl
  | cons item items ih => rw [readInTurn, List.flatMap_cons, List.flatMap_cons, each, ih]

section Violations

variable {symbol? : Declarations}

theorem misapplied_namingList (rel : String) (before : Nat) (args : List TermSource) :
    misapplied symbol? rel (TermSource.namingList name index before args) =
      misapplied symbol? rel args := by
  unfold misapplied
  rw [TermSource.length_namingList]

theorem AtomSource.violations_naming (named : name ≠ "") (before : Nat) (atom : AtomSource) :
    (atom.naming name index before).violations symbol? = atom.violations symbol? :=
  congrArg (undeclared symbol? atom.rel ++ ·) (unnamed_namingList named before atom.args)

theorem LiteralSource.violations_naming (named : name ≠ "") (before : Nat)
    (literal : LiteralSource) :
    (literal.naming name index before).violations symbol? = literal.violations symbol? := by
  cases literal with
  | eq lhs rhs | neq lhs rhs =>
      have same : unnamed (TermSource.namingList name index before [lhs, rhs]) = _ :=
        unnamed_namingList named before [lhs, rhs]
      simpa [naming, violations, TermSource.namingList] using same
  | atom described => exact described.violations_naming named before

theorem LiteralSource.misapplied_naming (before : Nat) (literal : LiteralSource) :
    (literal.naming name index before).misapplied symbol? = literal.misapplied symbol? := by
  cases literal with
  | eq lhs rhs | neq lhs rhs => rfl
  | atom described => exact misapplied_namingList described.rel before described.args

theorem RuleSource.violations_naming (named : name ≠ "") (before : Nat) (rule : RuleSource) :
    (rule.naming name index before).violations symbol? = rule.violations symbol? := by
  unfold violations naming
  rw [AtomSource.violations_naming named,
    flatMap_readInTurn_of_eq (LiteralSource.violations_naming named),
    flatMap_readInTurn_of_eq LiteralSource.misapplied_naming, AtomSource.naming,
    misapplied_namingList]

theorem queryViolations_naming (named : name ≠ "") (before : Nat) (query : AtomSource) :
    queryViolations symbol? (query.naming name index before) = queryViolations symbol? query := by
  unfold queryViolations
  rw [query.violations_naming named]
  exact congrArg (_ ++ ·) (misapplied_namingList query.rel before query.args)

end Violations

namespace ProgramSource

/-- The same is wrong with a description in which an underscore has been named. -/
theorem violations_naming (named : name ≠ "") (source : ProgramSource) :
    (source.naming name index).violations = source.violations := by
  have query : (source.naming name index).query.toList.flatMap (queryViolations source.symbol?) =
      source.query.toList.flatMap (queryViolations source.symbol?) := by
    unfold naming
    cases source.query with
    | none => rfl
    | some query => exact congrArg (· ++ []) (queryViolations_naming named _ query)
  have rules : (source.naming name index).rules.flatMap (RuleSource.violations source.symbol?) =
      source.rules.flatMap (RuleSource.violations source.symbol?) :=
    flatMap_readInTurn_of_eq (RuleSource.violations_naming named) 0 source.rules
  unfold violations
  rw [show (source.naming name index).symbol? = source.symbol? from rfl, rules, query]
  rfl

end ProgramSource

end Naming

/-! ## Renaming variables -/

/-- Rename the variable of number `index` to `name`, and each of the `later` ones behind it to the one in
front.  What was called `name` takes the place of the last. -/
def renumbered (name : String) (index : Nat) : (later : Nat) → Equiv.Perm String
  | 0 => Equiv.swap name (anonymousName index)
  | later + 1 =>
      (Equiv.swap name (anonymousName (index + later + 1))).trans (renumbered name index later)

section Renumbered

variable {name : String} {index later : Nat}

/-- A name is not that of a number from `index` on. -/
def Unnumbered (bare : String) (index later : Nat) : Prop :=
  ∀ number, index ≤ number → number ≤ index + later → bare ≠ anonymousName number

theorem renumbered_of_other {bare : String} (other : bare ≠ name)
    (unnumbered : Unnumbered bare index later) : renumbered name index later bare = bare := by
  induction later with
  | zero => exact Equiv.swap_apply_of_ne_of_ne other (unnumbered index le_rfl le_rfl)
  | succ later ih =>
      have swapped : Equiv.swap name (anonymousName (index + later + 1)) bare = bare :=
        Equiv.swap_apply_of_ne_of_ne other (unnumbered _ (by omega) (by omega))
      rw [renumbered, Equiv.trans_apply, swapped]
      exact ih fun number above below => unnumbered number above (by omega)

theorem renumbered_name (unnumbered : Unnumbered name index later) :
    renumbered name index later name = anonymousName (index + later) := by
  cases later with
  | zero => exact Equiv.swap_apply_left ..
  | succ later =>
      rw [renumbered, Equiv.trans_apply, Equiv.swap_apply_left]
      refine renumbered_of_other (unnumbered _ (by omega) (by omega)).symm fun number above below => ?_
      rw [anonymousName_injective.ne_iff]
      omega

/-- Each number from `index` on is renamed once. -/
theorem renumbered_anonymousName (unnumbered : Unnumbered name index later) {number : Nat}
    (above : index ≤ number) (below : number ≤ index + later) :
    renumbered name index later (anonymousName number) =
      if number = index then name else anonymousName (number - 1) := by
  induction later with
  | zero =>
      obtain rfl : number = index := by omega
      rw [if_pos rfl]
      exact Equiv.swap_apply_right ..
  | succ later ih =>
      have fewer : Unnumbered name index later :=
        fun number above below => unnumbered number above (by omega)
      rw [renumbered, Equiv.trans_apply]
      by_cases last : number = index + later + 1
      · rw [last, Equiv.swap_apply_right, renumbered_name fewer, if_neg (by omega),
          Nat.add_sub_cancel]
      · rw [Equiv.swap_apply_of_ne_of_ne (unnumbered number above below).symm
          (anonymousName_injective.ne last)]
        exact ih fewer (by omega)

/-- A name that can be written for the underscore number `index` with `later` ones behind it: it is the
name of a variable, and not that of an underscore. -/
structure Replaces (name : String) (index later : Nat) : Prop where
  positive : 0 < index
  isVariable : IsVariable name
  notUnderscore : name ≠ "_"
  unnumbered : ∀ number, 0 < number → number ≤ index + later → name ≠ anonymousName number

/-- Neither the name nor a number from `index` on is among bare names. -/
structure Spares (name : String) (index later : Nat) (names : List String) : Prop where
  name : name ∉ names
  numbers : ∀ number, index ≤ number → number ≤ index + later → anonymousName number ∉ names

theorem Spares.mono {names fewer : List String} (spares : Spares name index later names)
    (included : ∀ bare ∈ fewer, bare ∈ names) : Spares name index later fewer where
  name member := spares.name (included name member)
  numbers number above below member := spares.numbers number above below (included _ member)

theorem Spares.renumbered_eq {names : List String} (spares : Spares name index later names)
    {bare : String} (member : bare ∈ names) : renumbered name index later bare = bare :=
  renumbered_of_other (ne_of_mem_of_not_mem member spares.name) fun number above below =>
    ne_of_mem_of_not_mem member (spares.numbers number above below)

namespace Replaces

variable (replaces : Replaces name index later)
include replaces

theorem unnumbered_name : Unnumbered name index later := fun number above below =>
  replaces.unnumbered number (replaces.positive.trans_le above) below

theorem renumbered_index : renumbered name index later (anonymousName index) = name := by
  rw [renumbered_anonymousName replaces.unnumbered_name le_rfl (Nat.le_add_right ..), if_pos rfl]

/-- The other numbers count the underscores that are left. -/
theorem renumbered_succ {before : Nat} (bounded : before + 1 ≤ index + later)
    (other : before + 1 ≠ index) :
    renumbered name index later (anonymousName (before + 1)) =
      anonymousName (without index before + 1) := by
  by_cases inFront : before < index
  · rw [without, if_pos inFront]
    refine renumbered_of_other (replaces.unnumbered _ (by omega) bounded).symm fun number above _ => ?_
    rw [anonymousName_injective.ne_iff]
    omega
  · have positive := replaces.positive
    rw [renumbered_anonymousName replaces.unnumbered_name (by omega) bounded, if_neg other, without,
      if_neg inFront]
    congr 1
    omega

theorem meantByName_naming {before : Nat} {bare : String}
    (spares : Spares name index later [bare])
    (bounded : before + [bare].count "_" ≤ index + later) :
    meantByName (without index before) (if bare = "_" ∧ before + 1 = index then name else bare) =
      (meantByName before bare).rename (renumbered name index later) := by
  by_cases underscore : bare = "_"
  · subst underscore
    by_cases own : before + 1 = index
    · rw [if_pos ⟨rfl, own⟩, meantByName, meantByName, if_neg replaces.notUnderscore,
        if_pos replaces.isVariable, if_pos rfl, Term.rename, own, replaces.renumbered_index]
    · rw [if_neg fun both => own both.2, meantByName, meantByName, if_pos rfl, if_pos rfl,
        Term.rename, replaces.renumbered_succ bounded own]
  · rw [if_neg fun both => underscore both.1, meantByName, meantByName, if_neg underscore,
      if_neg underscore]
    split
    · rw [Term.rename, spares.renumbered_eq (List.mem_singleton_self bare)]
    · rfl

mutual

theorem meant_naming : (term : TermSource) → (before : Nat) →
    Spares name index later term.names → before + underscores [term] ≤ index + later →
      (term.naming name index before).meant (without index before) =
        (term.meant before).rename (renumbered name index later)
  | .bool _, _, _, _ | .int _, _, _, _ | .str _, _, _, _ => rfl
  | .name bare, before, spares, bounded => by
      rw [underscores_singleton] at bounded
      exact replaces.meantByName_naming spares bounded
  | .ctor _ args, before, spares, bounded | .call _ args, before, spares, bounded => by
      rw [underscores_singleton] at bounded
      rw [TermSource.naming, TermSource.meant, TermSource.meant, Term.rename]
      exact congrArg _ (meantList_namingList args before spares bounded)

/-- Writing a name for an underscore renames the variables of what is meant. -/
theorem meantList_namingList : (terms : List TermSource) → (before : Nat) →
    Spares name index later (TermSource.namesOfList terms) →
      before + underscores terms ≤ index + later →
        TermSource.meantList (without index before)
            (TermSource.namingList name index before terms) =
          Term.renameList (renumbered name index later) (TermSource.meantList before terms)
  | [], _, _, _ => rfl
  | term :: terms, before, spares, bounded => by
      rw [underscores_cons term terms] at bounded
      rw [TermSource.namesOfList] at spares
      have first := meant_naming term before (spares.mono fun _ => List.mem_append_left _) (by omega)
      have others := meantList_namingList terms (before + underscores [term])
        (spares.mono fun _ => List.mem_append_right _) (by omega)
      rw [TermSource.namingList, TermSource.meantList, TermSource.meantList, Term.renameList, first,
        TermSource.underscores_naming replaces.notUnderscore replaces.positive term, others]

end

theorem meant_naming_atom {symbol? : Declarations} {before : Nat} {atom : AtomSource}
    (spares : Spares name index later (TermSource.namesOfList atom.args))
    (bounded : before + underscores atom.args ≤ index + later) :
    (atom.naming name index before).meant symbol? (without index before) =
      (atom.meant symbol? before).rename (renumbered name index later) := by
  unfold AtomSource.naming AtomSource.meant Atom.rename
  rw [TermSource.length_namingList, replaces.meantList_namingList atom.args before spares bounded]

theorem meant_naming_literal {symbol? : Declarations} {before : Nat} {literal : LiteralSource}
    (spares : Spares name index later (TermSource.namesOfList literal.terms))
    (bounded : before + underscores literal.terms ≤ index + later) :
    (literal.naming name index before).meant symbol? (without index before) =
      (literal.meant symbol? before).rename (renumbered name index later) := by
  cases literal with
  | eq lhs rhs | neq lhs rhs =>
      have both := replaces.meantList_namingList [lhs, rhs] before spares bounded
      simp only [TermSource.namingList, TermSource.meantList, Term.renameList,
        TermSource.underscores_naming replaces.notUnderscore replaces.positive, List.cons.injEq,
        and_true] at both
      simp only [LiteralSource.naming, LiteralSource.meant, Literal.rename, both,
        TermSource.underscores_naming replaces.notUnderscore replaces.positive]
  | atom described => exact congrArg Literal.predicate (replaces.meant_naming_atom spares bounded)

/-- If an underscore is named in each of the items, they mean what they meant before, renamed. -/
theorem readInTurn_naming {α β : Type} {terms : α → List TermSource} {read : Nat → α → β}
    {naming : Nat → α → α} {rename : β → β}
    (terms_naming : ∀ before item, terms (naming before item) =
      TermSource.namingList name index before (terms item))
    (each : ∀ {before item}, Spares name index later (TermSource.namesOfList (terms item)) →
      before + underscores (terms item) ≤ index + later →
        read (without index before) (naming before item) = rename (read before item))
    {before : Nat} {items : List α}
    (spares : Spares name index later (TermSource.namesOfList (items.flatMap terms)))
    (bounded : before + underscores (items.flatMap terms) ≤ index + later) :
    readInTurn terms read (without index before) (readInTurn terms naming before items) =
      (readInTurn terms read before items).map rename := by
  induction items generalizing before with
  | nil => rfl
  | cons item items ih =>
      rw [List.flatMap_cons, TermSource.namesOfList_append] at spares
      rw [List.flatMap_cons, underscores_append] at bounded
      have first := each (spares.mono fun _ => List.mem_append_left _) (show before + _ ≤ _ by omega)
      have others := ih (spares.mono fun _ => List.mem_append_right _)
        (show before + underscores (terms item) + _ ≤ _ by omega)
      rw [readInTurn, readInTurn, readInTurn, List.map_cons, first, terms_naming,
        TermSource.underscores_namingList replaces.notUnderscore replaces.positive, others]

theorem meant_naming_rule {symbol? : Declarations} {before : Nat} {rule : RuleSource}
    (spares : Spares name index later (TermSource.namesOfList rule.terms))
    (bounded : before + underscores rule.terms ≤ index + later) :
    (rule.naming name index before).meant symbol? (without index before) =
      (rule.meant symbol? before).rename (renumbered name index later) := by
  rw [RuleSource.terms, TermSource.namesOfList_append] at spares
  rw [RuleSource.terms, underscores_append] at bounded
  have head : (rule.head.naming name index before).meant symbol? (without index before) = _ :=
    replaces.meant_naming_atom (spares.mono fun _ => List.mem_append_left _) (by omega)
  have body := replaces.readInTurn_naming LiteralSource.terms_naming
    (@meant_naming_literal _ _ _ replaces symbol?) (spares.mono fun _ => List.mem_append_right _)
    (show before + underscores rule.head.args + _ ≤ _ by omega)
  unfold RuleSource.naming RuleSource.meant Rule.rename
  rw [head]
  simp only [AtomSource.naming,
    TermSource.underscores_namingList replaces.notUnderscore replaces.positive, body]

theorem meant_naming_program {source : ProgramSource}
    (spares : Spares name index later (TermSource.namesOfList source.ruleTerms))
    (bounded : underscores source.ruleTerms ≤ index + later) :
    (source.naming name index).meant = source.meant.rename (renumbered name index later) := by
  rw [ProgramSource.ruleTerms, TermSource.namesOfList_append] at spares
  rw [ProgramSource.ruleTerms, underscores_append] at bounded
  have start := without_zero replaces.positive
  have rules := replaces.readInTurn_naming RuleSource.terms_naming
    (@meant_naming_rule _ _ _ replaces source.symbol?) (spares.mono fun _ => List.mem_append_left _)
    (show 0 + _ ≤ _ by omega)
  have counted : underscores ((source.naming name index).rules.flatMap RuleSource.terms) =
      without index (underscores (source.rules.flatMap RuleSource.terms)) := by
    have all := TermSource.underscores_namingList replaces.notUnderscore replaces.positive
      (source.rules.flatMap RuleSource.terms) 0
    rw [start, Nat.zero_add, Nat.zero_add] at all
    rw [← all]
    exact congrArg underscores
      (flatMap_readInTurn (TermSource.namingList name index) (fun _ => rfl)
        TermSource.namingList_append RuleSource.terms_naming 0 source.rules)
  have query : (source.naming name index).meant.query =
      source.meant.query.map (Atom.rename (renumbered name index later)) := by
    unfold ProgramSource.meant
    rw [counted]
    unfold ProgramSource.naming
    cases query : source.query with
    | none => rfl
    | some query =>
        rw [query, Option.toList_some, List.flatMap_singleton] at spares bounded
        exact congrArg some (replaces.meant_naming_atom
          (spares.mono fun _ => List.mem_append_right _) bounded)
  rw [start] at rules
  unfold Program.rename
  rw [← query]
  unfold ProgramSource.meant
  rw [← rules]
  rfl

/-- The description is accepted as before, and the program has been renamed. -/
theorem toProgram_naming {source : ProgramSource} {program : Program}
    (spares : Spares name index later (TermSource.namesOfList source.ruleTerms))
    (bounded : underscores source.ruleTerms ≤ index + later)
    (accepted : source.toProgram = .ok program) :
    (source.naming name index).toProgram = .ok (program.rename (renumbered name index later)) := by
  have named : name ≠ "" := by
    rintro rfl
    exact absurd replaces.isVariable (by decide)
  rw [ProgramSource.toProgram_eq_ok] at accepted ⊢
  obtain ⟨right, rfl⟩ := accepted
  exact ⟨(source.violations_naming named).trans right,
    replaces.meant_naming_program spares bounded⟩

end Replaces

end Renumbered

/-! ## Occurrences of variables -/

section Occurrences

variable {symbol? : Declarations}

theorem AtomSource.vars_meant (before : Nat) (atom : AtomSource) :
    (atom.meant symbol? before).vars = numbered before (TermSource.namesOfList atom.args) :=
  TermSource.varsList_meantList atom.args before

theorem LiteralSource.vars_meant (before : Nat) (literal : LiteralSource) :
    (literal.meant symbol? before).vars =
      numbered before (TermSource.namesOfList literal.terms) := by
  cases literal with
  | eq lhs rhs | neq lhs rhs => exact TermSource.varsList_meantList [lhs, rhs] before
  | atom described => exact described.vars_meant before

/-- If the variables of each item are those that are named, so are those of all of them. -/
theorem flatMap_readInTurn_vars {α β : Type} {terms : α → List TermSource} {read : Nat → α → β}
    {vars : β → List String}
    (each : ∀ before item,
      vars (read before item) = numbered before (TermSource.namesOfList (terms item)))
    (before : Nat) (items : List α) :
    (readInTurn terms read before items).flatMap vars =
      numbered before (TermSource.namesOfList (items.flatMap terms)) := by
  apply flatMap_readInTurn (fun before terms => numbered before (TermSource.namesOfList terms))
    (fun _ => rfl) _ each
  intro before terms others
  rw [TermSource.namesOfList_append, numbered_append]
  rfl

theorem RuleSource.occurrences_meant (before : Nat) (rule : RuleSource) :
    (rule.meant symbol? before).occurrences =
      numbered before (TermSource.namesOfList rule.terms) := by
  rw [terms, TermSource.namesOfList_append, numbered_append]
  exact congrArg₂ _ (rule.head.vars_meant before)
    (flatMap_readInTurn_vars LiteralSource.vars_meant _ rule.body)

end Occurrences

end Source

/-- The occurrences of variables in the rules and in the query; facts have no variables. -/
def Program.occurrences (program : Program) : List String :=
  program.rules.flatMap Rule.occurrences ++ program.query.toList.flatMap Atom.vars

namespace Source
namespace ProgramSource

/-- The variables are those that are named, with the underscores numbered. -/
theorem occurrences_meant (source : ProgramSource) :
    source.meant.occurrences = numbered 0 (TermSource.namesOfList source.ruleTerms) := by
  rw [ruleTerms, TermSource.namesOfList_append, numbered_append, Nat.zero_add]
  refine congrArg₂ _ (flatMap_readInTurn_vars RuleSource.occurrences_meant 0 source.rules) ?_
  unfold meant
  cases source.query with
  | none => rfl
  | some query =>
      rw [Option.map_some, Option.toList_some, Option.toList_some, List.flatMap_singleton,
        List.flatMap_singleton]
      exact query.vars_meant _

/-- The variable of an underscore occurs for this underscore, and wherever its name is written. -/
theorem count_anonymousName {source : ProgramSource} {index : Nat} (positive : 0 < index)
    (bounded : index ≤ underscores source.ruleTerms) :
    source.meant.occurrences.count (anonymousName index) =
      (TermSource.namesOfList source.ruleTerms).count (anonymousName index) + 1 := by
  rw [occurrences_meant, count_numbered, if_pos ⟨positive, by rwa [Nat.zero_add]⟩]

end ProgramSource
end Source
end Datalog
