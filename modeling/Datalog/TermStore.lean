import Datalog.Term

/-!
# Interned terms

Every ground term is stored once and referred to by its number afterwards.  Equal terms receive the
same number, so tuples of numbers can be compared instead of tuples of terms.  The numbers count up
from zero in the order in which the terms first appear.
-/

namespace Datalog

/-- The number of an interned term. -/
structure TermId where
  raw : UInt32
  deriving DecidableEq, Inhabited

namespace TermId

instance : LT TermId := ⟨fun left right => left.raw < right.raw⟩

instance : LE TermId := ⟨fun left right => left.raw ≤ right.raw⟩

instance : DecidableLT TermId := fun left right =>
  inferInstanceAs (Decidable (left.raw < right.raw))

instance : DecidableLE TermId := fun left right =>
  inferInstanceAs (Decidable (left.raw ≤ right.raw))

instance : Ord TermId := ⟨fun left right => compare left.raw right.raw⟩

def least : TermId := ⟨0⟩

/-- The largest number.  A store that has not run full never hands it out. -/
def greatest : TermId := ⟨0xFFFFFFFF⟩

def render (id : TermId) : String :=
  "#" ++ toString id.raw.toNat

end TermId

/-- A fact's arguments: one interned term for each column. -/
abbrev Tuple := List TermId

/-- A ground term whose arguments are interned. -/
inductive GroundTerm where
  | bool (value : Bool)
  | int (value : Int64)
  | str (value : String)
  | ctor (name : String) (args : List TermId)
  deriving DecidableEq, Inhabited

namespace GroundTerm

/-- The place of each kind of term in the order of terms. -/
def rank : GroundTerm → Nat
  | .bool _ => 0
  | .int _ => 1
  | .str _ => 2
  | .ctor .. => 3

/-- The order of terms: truth values, integers, texts and then constructors, which are ordered by
their names and then by the numbers of their arguments. -/
def compare : GroundTerm → GroundTerm → Ordering
  | .bool left, .bool right => Ord.compare left right
  | .int left, .int right => Ord.compare left.toInt right.toInt
  | .str left, .str right => Ord.compare left right
  | .ctor name args, .ctor name' args' => (Ord.compare name name').then (Ord.compare args args')
  | left, right => Ord.compare left.rank right.rank

instance : Ord GroundTerm := ⟨compare⟩

end GroundTerm

/-- The terms interned so far, in the order of their numbers. -/
structure TermStore where
  terms : Array GroundTerm := #[]
  deriving DecidableEq, Inhabited

namespace TermStore

def size (store : TermStore) : Nat :=
  store.terms.size

/-- The term of a number, if the number was handed out. -/
def resolve (store : TermStore) (id : TermId) : Option GroundTerm :=
  store.terms[id.raw.toNat]?

/-- The number of a term, which is stored if it is new. -/
def intern (store : TermStore) (term : GroundTerm) : TermId × TermStore :=
  match store.terms.idxOf? term with
  | some index => (⟨.ofNat index⟩, store)
  | none => (⟨.ofNat store.terms.size⟩, { terms := store.terms.push term })

def summary (store : TermStore) : String :=
  "TermStore \x7b len: " ++ toString store.size ++ ", .. \x7d"

def int? (store : TermStore) (id : TermId) : Option Int64 :=
  match store.resolve id with
  | some (.int value) => some value
  | _ => none

def bool? (store : TermStore) (id : TermId) : Option Bool :=
  match store.resolve id with
  | some (.bool value) => some value
  | _ => none

def str? (store : TermStore) (id : TermId) : Option String :=
  match store.resolve id with
  | some (.str value) => some value
  | _ => none

/-- The written form of the term of a number, up to some depth; a number without a term is written
as the number. -/
def renderTo (store : TermStore) : (depth : Nat) → TermId → String
  | 0, id => id.render
  | depth + 1, id =>
      match store.resolve id with
      | none => id.render
      | some (.bool value) => Term.renderBool value
      | some (.int value) => Term.renderInt value
      | some (.str value) => Text.quote value
      | some (.ctor name args) => Term.renderCtor name (args.map (store.renderTo depth))

/-- The written form of the term of a number.  No term nests deeper than there are terms. -/
def render (store : TermStore) (id : TermId) : String :=
  store.renderTo (store.size + 1) id

def renderTuple (store : TermStore) (tuple : Tuple) : String :=
  Text.parenthesized (tuple.map store.render)

def decode (store : TermStore) (tuple : Tuple) : List GroundTerm :=
  tuple.filterMap store.resolve

/-- Tuples in the order of their terms, and of their numbers where the terms do not tell them
apart. -/
def sortTuples (store : TermStore) (tuples : List Tuple) : List Tuple :=
  tuples.mergeSort fun left right =>
    ((Ord.compare (store.decode left) (store.decode right)).then (Ord.compare left right)).isLE

/-- One store extends another if it holds the same terms under the same numbers, and maybe more. -/
def Extends (later earlier : TermStore) : Prop :=
  earlier.terms.toList <+: later.terms.toList

theorem Extends.refl (store : TermStore) : store.Extends store :=
  List.prefix_refl _

theorem Extends.trans {first second third : TermStore} (left : third.Extends second)
    (right : second.Extends first) : third.Extends first :=
  List.IsPrefix.trans right left

theorem extends_intern (store : TermStore) (term : GroundTerm) :
    (store.intern term).2.Extends store := by
  unfold intern
  split
  · exact .refl store
  · simp [Extends]

end TermStore

end Datalog
