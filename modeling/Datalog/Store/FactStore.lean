import Datalog.Config
import Datalog.Error
import Datalog.Store.View

/-!
# Fact stores

A store keeps the tuples of each of its relations in one index for every pattern that was asked for
while the store was planned.  One of them, the master, reads every column and holds the canonical
set of tuples.  Lookups on relations that the store was not built for find nothing.
-/

namespace Datalog

/-- The indices of a relation and the place of the master among them. -/
structure Relation where
  indices : List Index
  master : Nat
  deriving DecidableEq, Inhabited

namespace Relation

/-- A relation without tuples that has an index for every given pattern, and a master. -/
def ofPatterns (arity : Nat) (patterns : List Pattern) : Relation :=
  let indices := patterns.map fun pattern => { pattern }
  match patterns.findIdx? Pattern.isAllFree with
  | some master => { indices, master }
  | none => { indices := indices ++ [{ pattern := .allFree arity }], master := patterns.length }

/-- The index that holds every tuple. -/
def masterIndex (relation : Relation) : Index :=
  relation.indices.getD relation.master default

/-- Add a tuple to every index, and tell whether it is new. -/
def add (relation : Relation) (tuple : Tuple) : Bool × Relation :=
  if relation.masterIndex.contains tuple then
    (false, relation)
  else
    (true, { relation with indices := relation.indices.map fun index => (index.insert tuple).2 })

/-- Add tuples to every index, and count the new ones. -/
def addAll (relation : Relation) (tuples : List Tuple) : Nat × Relation :=
  match (relation.masterIndex.insertAll tuples).1 with
  | 0 => (0, relation)
  | added =>
      (added,
        { relation with indices := relation.indices.map fun index => (index.insertAll tuples).2 })

def clear (relation : Relation) : Relation where
  indices := relation.indices.map Index.clear
  master := relation.master

end Relation

/-- The relations of a store, in the order in which they were registered. -/
structure FactStore where
  relations : List (RelationSymbol × Relation) := []
  limits : ViewLimits
  deriving DecidableEq, Inhabited

namespace FactStore

def symbols (store : FactStore) : List RelationSymbol :=
  store.relations.map (·.1)

def relation? (store : FactStore) (symbol : RelationSymbol) : Option Relation :=
  (store.relations.find? (·.1 = symbol)).map (·.2)

/-- A store with the indices of one relation replaced. -/
def setRelation (store : FactStore) (symbol : RelationSymbol) (relation : Relation) :
    FactStore where
  relations := store.relations.map fun entry =>
    if entry.1 = symbol then (symbol, relation) else entry
  limits := store.limits

/-- Add a tuple, and tell whether it is new. -/
def add (store : FactStore) (symbol : RelationSymbol) (tuple : Tuple) : Bool × FactStore :=
  match store.relation? symbol with
  | none => (false, store)
  | some relation =>
      let (isNew, relation) := relation.add tuple
      (isNew, store.setRelation symbol relation)

/-- Add tuples, and count the new ones. -/
def addAll (store : FactStore) (symbol : RelationSymbol) (tuples : List Tuple) : Nat × FactStore :=
  match store.relation? symbol with
  | none => (0, store)
  | some relation =>
      let (added, relation) := relation.addAll tuples
      (added, store.setRelation symbol relation)

def clear (store : FactStore) : FactStore where
  relations := store.relations.map fun entry => (entry.1, entry.2.clear)
  limits := store.limits

def clearRelation (store : FactStore) (symbol : RelationSymbol) : FactStore :=
  match store.relation? symbol with
  | none => store
  | some relation => store.setRelation symbol relation.clear

/-- The index of a relation that has a given number. -/
def index? (store : FactStore) (symbol : RelationSymbol) (number : Nat) : Option Index :=
  (store.relation? symbol).bind fun relation => relation.indices[number]?

/-- The tuples whose columns that are bound in an index have given values. -/
def get (store : FactStore) (symbol : RelationSymbol) (number : Nat) (key : Key) : View :=
  match store.index? symbol number with
  | some index => index.lookup store.limits key
  | none => .empty

/-- The master of a relation, or an index without entries. -/
def masterOf (store : FactStore) (symbol : RelationSymbol) : Index :=
  ((store.relation? symbol).map Relation.masterIndex).getD default

def all (store : FactStore) (symbol : RelationSymbol) : View :=
  (store.masterOf symbol).all store.limits

/-- The tuples of a relation, read to the end. -/
def tuplesOf (store : FactStore) (symbol : RelationSymbol) : List Tuple :=
  (store.all symbol).tuples (store.masterOf symbol)

def has (store : FactStore) (symbol : RelationSymbol) (tuple : Tuple) : Bool :=
  (store.relation? symbol).any fun relation => relation.masterIndex.contains tuple

/-- The number of tuples of a relation. -/
def countDistinct (store : FactStore) (symbol : RelationSymbol) : Nat :=
  ((store.relation? symbol).map fun relation => relation.masterIndex.size).getD 0

/-- The number of entries in all indices of a relation. -/
def countEntries (store : FactStore) (symbol : RelationSymbol) : Nat :=
  ((store.relation? symbol).map fun relation =>
    (relation.indices.map Index.size).foldr (· + ·) 0).getD 0

def countIndices (store : FactStore) (symbol : RelationSymbol) : Nat :=
  ((store.relation? symbol).map fun relation => relation.indices.length).getD 0

/-! ## Consistency -/

/-- A disagreement between an index and the master of its relation. -/
inductive Disagreement where
  | notProjection (symbol : RelationSymbol) (pattern : Pattern)
  | differs (symbol : RelationSymbol) (pattern : Pattern) (held inMaster : Nat)
  deriving DecidableEq

def Disagreement.message : Disagreement → String
  | .notProjection symbol pattern =>
      s!"{symbol.name}[{pattern.render}] is not a projection of the master"
  | .differs symbol pattern held inMaster =>
      s!"{symbol.name}[{pattern.render}] holds {held} tuples, master holds {inMaster}"

/-- How an index disagrees with the master, if it does. -/
def disagreement? (symbol : RelationSymbol) (master index : Index) : Option Disagreement :=
  let missing := master.tuples.any fun tuple => !index.contains tuple
  if index.pattern.isProjection then
    if missing || master.size < index.size then some (.notProjection symbol index.pattern) else none
  else
    if index.size ≠ master.size || missing then
      some (.differs symbol index.pattern index.size master.size)
    else none

/-- The first disagreement between an index and its master. -/
def firstDisagreement? (store : FactStore) : Option Disagreement :=
  store.relations.findSome? fun entry =>
    entry.2.indices.findSome? (disagreement? entry.1 entry.2.masterIndex)

/-! ## Display -/

/-- The line about one index of a relation. -/
def renderIndex (master number : Nat) (index : Index) : String :=
  "  #" ++ toString number ++ " [" ++ index.pattern.render ++ "] bound="
    ++ toString index.pattern.boundCount ++ " size=" ++ toString index.size
    ++ (if number = master then " master" else "") ++ "\n"

/-- The lines about one relation: its indices and its tuples. -/
def renderRelation (symbol : RelationSymbol) (relation : Relation) : String :=
  symbol.name ++ " (" ++ toString relation.masterIndex.size ++ " facts)\n"
    ++ String.join (relation.indices.mapIdx (renderIndex relation.master))
    ++ String.join (relation.masterIndex.tuples.map fun tuple =>
        "  " ++ Text.parenthesized (tuple.map TermId.render) ++ "\n")

def render (store : FactStore) : String :=
  String.join (store.relations.map fun entry => renderRelation entry.1 entry.2)

end FactStore

/-- The indices that have been asked for, before a store is built. -/
structure StorePlan where
  patterns : List (RelationSymbol × List Pattern) := []
  deriving DecidableEq, Inhabited

namespace StorePlan

/-- A plan for some relations without any request. -/
def ofSymbols (symbols : List RelationSymbol) : StorePlan where
  patterns := symbols.eraseDups.map fun symbol => (symbol, [])

/-- Ask for an index and learn its number within the relation.  Asking again for the same pattern
gives the same number. -/
def request (plan : StorePlan) (symbol : RelationSymbol) (pattern : Pattern) :
    Except SetupError (Nat × StorePlan) :=
  match plan.patterns.find? (·.1 = symbol) with
  | none => .error (.unknownRelation symbol.name)
  | some (_, patterns) =>
      if pattern.length ≠ symbol.arity then
        .error (.arityMismatch symbol.name symbol.arity pattern.length)
      else
        match patterns.findIdx? (· = pattern) with
        | some number => .ok (number, plan)
        | none =>
            let extended := plan.patterns.map fun entry =>
              if entry.1 = symbol then (symbol, patterns ++ [pattern]) else entry
            .ok (patterns.length, { patterns := extended })

/-- An empty store with the indices that were asked for. -/
def build (plan : StorePlan) (config : Config) : FactStore where
  relations := plan.patterns.map fun entry => (entry.1, .ofPatterns entry.1.arity entry.2)
  limits := { maxArraySize := config.maxArraySize, numGuesses := config.numGuesses }

end StorePlan

end Datalog
