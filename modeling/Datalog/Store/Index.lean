import Datalog.TermStore

/-!
# Sorted indices

An index keeps the tuples of one relation sorted by a key.  The key of a tuple is made of the
columns that a lookup knows, followed by the columns that it reads; columns that are never read are
left out.  Of several tuples with the same key an index keeps the first.
-/

namespace Datalog

/-- How a lookup treats a column. -/
inductive Binding where
  /-- The value is known before the lookup. -/
  | bound
  /-- The value is read from each matching tuple. -/
  | free
  /-- The value is never read. -/
  | ignored
  deriving DecidableEq, Inhabited

/-- How a lookup treats the columns of a relation. -/
abbrev Pattern := List Binding

namespace Pattern

/-- The letter that stands for a column. -/
def letter : Binding → Char
  | .bound => 'b'
  | .free => 'f'
  | .ignored => '_'

def render (pattern : Pattern) : String :=
  String.ofList (pattern.map letter)

/-- The columns that are treated in a given way. -/
def columns (pattern : Pattern) (binding : Binding) : List Nat :=
  pattern.zipIdx.filterMap fun (binding', column) =>
    if binding' = binding then some column else none

/-- The columns that make up the key: the bound ones and then the free ones. -/
def keyColumns (pattern : Pattern) : List Nat :=
  pattern.columns .bound ++ pattern.columns .free

def boundCount (pattern : Pattern) : Nat :=
  pattern.count .bound

/-- Whether some column is left out of the key. -/
def isProjection (pattern : Pattern) : Bool :=
  pattern.contains .ignored

/-- The pattern that reads every column of a relation. -/
def allFree (arity : Nat) : Pattern :=
  List.replicate arity .free

def isAllFree (pattern : Pattern) : Bool :=
  pattern.all (· = .free)

def keyOf (pattern : Pattern) (tuple : Tuple) : List TermId :=
  pattern.keyColumns.map fun column => tuple[column]?.getD default

end Pattern

/-- The key of a tuple in an index.  Keys are ordered column by column. -/
abbrev Key := List TermId

/-- One end of a range of keys. -/
inductive KeyBound where
  | unbounded
  | included (key : Key)
  | excluded (key : Key)
  deriving DecidableEq, Inhabited

/-- A range of keys. -/
structure KeyRange where
  lower : KeyBound := .unbounded
  upper : KeyBound := .unbounded
  deriving DecidableEq, Inhabited

namespace KeyRange

/-- Whether a key is not below a lower bound. -/
def isAbove (key : Key) : KeyBound → Bool
  | .unbounded => true
  | .included bound => !(key < bound)
  | .excluded bound => bound < key

/-- Whether a key is not above an upper bound. -/
def isBelow (key : Key) : KeyBound → Bool
  | .unbounded => true
  | .included bound => !(bound < key)
  | .excluded bound => key < bound

def contains (range : KeyRange) (key : Key) : Bool :=
  isAbove key range.lower && isBelow key range.upper

/-- The keys of a given length that start with given columns. -/
def ofFront (front : Key) (length : Nat) : KeyRange where
  lower := .included (front ++ List.replicate (length - front.length) .least)
  upper := .included (front ++ List.replicate (length - front.length) .greatest)

end KeyRange

/-- A tuple stored under its key. -/
structure Entry where
  key : Key
  tuple : Tuple
  deriving DecidableEq, Inhabited

/-- The tuples of a relation, sorted by the keys that a pattern gives them. -/
structure Index where
  pattern : Pattern
  entries : List Entry := []
  deriving DecidableEq, Inhabited

namespace Index

/-- The place of an entry among sorted entries, or nothing if its key is taken. -/
def addSorted? (entry : Entry) : List Entry → Option (List Entry)
  | [] => some [entry]
  | head :: entries =>
      if entry.key < head.key then some (entry :: head :: entries)
      else if entry.key = head.key then none
      else (addSorted? entry entries).map (head :: ·)

def entryOf (index : Index) (tuple : Tuple) : Entry where
  key := index.pattern.keyOf tuple
  tuple := tuple

/-- Add a tuple, and tell whether its key is new. -/
def insert (index : Index) (tuple : Tuple) : Bool × Index :=
  match addSorted? (index.entryOf tuple) index.entries with
  | some entries => (true, { index with entries })
  | none => (false, index)

/-- Add tuples one after another, and count the new keys. -/
def insertAll (index : Index) : List Tuple → Nat × Index
  | [] => (0, index)
  | tuple :: tuples =>
      let (isNew, index) := index.insert tuple
      let (count, index) := insertAll index tuples
      (if isNew then count + 1 else count, index)

/-- Whether the key of a tuple is present. -/
def contains (index : Index) (tuple : Tuple) : Bool :=
  let key := index.pattern.keyOf tuple
  index.entries.any (·.key = key)

def size (index : Index) : Nat :=
  index.entries.length

def clear (index : Index) : Index where
  pattern := index.pattern

/-- The tuples in the order of their keys. -/
def tuples (index : Index) : List Tuple :=
  index.entries.map (·.tuple)

/-- The entries whose keys belong to a range, in order. -/
def entriesIn (index : Index) (range : KeyRange) : List Entry :=
  index.entries.filter (range.contains ·.key)

/-- The range of the keys whose bound columns have given values. -/
def rangeOf (index : Index) (key : Key) : KeyRange :=
  .ofFront key index.pattern.keyColumns.length

end Index

end Datalog
