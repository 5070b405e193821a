import Datalog.Store.Index

/-!
# Views

A view is what a lookup in an index hands back.  A small result is copied out of the index at once;
of a large one the view only remembers the range of keys, and reads it when it is iterated.  Tuples
that are added to the index meanwhile are seen if their keys lie ahead.  Either kind of view splits
in two, so that a large result can be shared among tasks.
-/

namespace Datalog

/-- The sizes that decide how results are handed back and split. -/
structure ViewLimits where
  /-- The largest result that is copied at once. -/
  maxArraySize : UInt64
  /-- The number of probes spent on finding the middle of a range. -/
  numGuesses : UInt64
  deriving DecidableEq, Inhabited

/-- The result of a lookup in an index. -/
inductive View where
  | array (tuples : List Tuple)
  /-- A range of the index that held `count` entries when it was looked up. -/
  | range (keys : KeyRange) (count : Nat)
  deriving DecidableEq, Inhabited

namespace View

def empty : View :=
  .array []

/-- The number of tuples in a view when it was made. -/
def length : View → Nat
  | .array tuples => tuples.length
  | .range _ count => count

/-- Whether a view was empty when it was made. -/
def isEmpty (view : View) : Bool :=
  view.length = 0

/-- The tuples of a view of an index as it is now. -/
def tuples (index : Index) : View → List Tuple
  | .array tuples => tuples
  | .range keys _ => (index.entriesIn keys).map (·.tuple)

end View

namespace Index

/-- The entries of a range.  The limit on copies is a machine word, and one more than the largest
word is none. -/
def view (index : Index) (limits : ViewLimits) (keys : KeyRange) : View :=
  let found := index.entriesIn keys
  let front := found.take (limits.maxArraySize + 1).toNat
  if front.length ≤ limits.maxArraySize.toNat then
    .array (front.map (·.tuple))
  else
    .range keys found.length

/-- The tuples whose bound columns have given values. -/
def lookup (index : Index) (limits : ViewLimits) (key : Key) : View :=
  index.view limits (index.rangeOf key)

def all (index : Index) (limits : ViewLimits) : View :=
  index.view limits {}

/-! ## Iteration -/

/-- The number of entries that are read from an index at once. -/
def chunkSize : Nat := 256

/-- The next tuples of a range, and the rest of the range if there may be more. -/
def readChunk (index : Index) (keys : KeyRange) : List Tuple × Option KeyRange :=
  let chunk := (index.entriesIn keys).take chunkSize
  let rest :=
    if chunk.length < chunkSize then none
    else chunk.getLast?.map fun entry => { keys with lower := .excluded entry.key }
  (chunk.map (·.tuple), rest)

end Index

/-- A place in a view: the tuples that have been read and not yet handed out, and the range that is
left to read. -/
structure Cursor where
  buffer : List Tuple
  rest : Option KeyRange
  deriving DecidableEq, Inhabited

namespace Cursor

def next (index : Index) (cursor : Cursor) : Option (Tuple × Cursor) :=
  match cursor.buffer, cursor.rest with
  | tuple :: buffer, rest => some (tuple, { buffer, rest })
  | [], none => none
  | [], some keys =>
      match index.readChunk keys with
      | ([], _) => none
      | (tuple :: buffer, rest) => some (tuple, { buffer, rest })

end Cursor

/-- The start of a view. -/
def View.cursor : View → Cursor
  | .array tuples => { buffer := tuples, rest := none }
  | .range keys _ => { buffer := [], rest := some keys }

/-! ## Splitting -/

/-- A supply of numbers that stand for random draws, and how many of them have been used. -/
structure Draws where
  number : Nat → Nat
  used : Nat := 0

namespace Draws

/-- A number from `low` up to but not including `high`. -/
def between (draws : Draws) (low high : Nat) : Nat × Draws :=
  (low + draws.number draws.used % (high - low), { draws with used := draws.used + 1 })

end Draws

namespace Split

/-- One more than a number, but no more than the largest one. -/
def nextRaw (raw : Nat) : Nat :=
  min (raw + 1) TermId.greatest.raw.toNat

/-- A bound above every number of two keys. -/
def boundOf (first last : Key) : Nat :=
  nextRaw ((first ++ last).foldl (fun bound id => max bound id.raw.toNat) 0)

/-- The columns of a random key between two keys.  Once the columns chosen so far put the key above
the first or below the last, that end no longer restricts the others. -/
def guessColumns (bound : Nat) (aboveFirst belowLast : Bool) :
    (first last : Key) → Draws → Key × Draws
  | low :: first, high :: last, draws =>
      let lowBound := if aboveFirst then 0 else low.raw.toNat
      let highBound := if belowLast then bound else nextRaw high.raw.toNat
      let (raw, draws) :=
        if lowBound < highBound then draws.between lowBound highBound else (lowBound, draws)
      let (columns, draws) :=
        guessColumns bound (aboveFirst || low.raw.toNat < raw) (belowLast || raw < high.raw.toNat)
          first last draws
      (⟨.ofNat raw⟩ :: columns, draws)
  | _, _, draws => ([], draws)

/-- A random key from `first` to `last`, both included. -/
def guessMiddle (first last : Key) (draws : Draws) : Key × Draws :=
  guessColumns (boundOf first last) false false first last draws

/-- A key that splits a range, and the number of entries below it. -/
structure Middle where
  key : Key
  below : Nat
  deriving DecidableEq, Inhabited

/-- How far a number of entries is from half of them. -/
def distance (count below : Nat) : Nat :=
  (below - count / 2) + (count / 2 - below)

/-- Probe for a key that has entries on both sides, as near to the middle as can be found; the
search ends early at less than a tenth from the middle. -/
def findMiddle (index : Index) (keys : KeyRange) (count : Nat) (first last : Key) :
    (guesses : Nat) → Option Middle → Draws → Option Middle × Draws
  | 0, best, draws => (best, draws)
  | guesses + 1, best, draws =>
      let (key, draws) := guessMiddle first last draws
      let below := (index.entriesIn { keys with upper := .excluded key }).length
      let delta := distance count below
      let isNoBetter := best.any fun best => distance count best.below ≤ delta
      if below = 0 || count ≤ below || isNoBetter then
        findMiddle index keys count first last guesses best draws
      else if delta * 10 < count then
        (some { key, below }, draws)
      else
        findMiddle index keys count first last guesses (some { key, below }) draws

/-- A part of a range that held `count` entries: a small part is looked up again. -/
def part (index : Index) (limits : ViewLimits) (keys : KeyRange) (count : Nat) : View :=
  if count ≤ limits.maxArraySize.toNat then index.view limits keys else .range keys count

end Split

namespace View

/-- Two views that share the tuples of a view, the lower keys first.  A view of fewer than two
tuples does not split, and neither does a range in which no probe found a middle. -/
def split (index : Index) (limits : ViewLimits) (view : View) (draws : Draws) :
    Option (View × View) × Draws :=
  match view with
  | .array tuples =>
      if tuples.length < 2 then (none, draws)
      else
        let middle := tuples.length / 2
        (some (.array (tuples.take middle), .array (tuples.drop middle)), draws)
  | .range keys count =>
      let found := index.entriesIn keys
      match found.head?, found.getLast? with
      | some first, some last =>
          if count < 2 || first.key.isEmpty then (none, draws)
          else
            let guesses := limits.numGuesses.toNat
            let (middle, draws) :=
              Split.findMiddle index keys count first.key last.key guesses none draws
            let parts := middle.map fun middle =>
              ( Split.part index limits { keys with upper := .excluded middle.key } middle.below,
                Split.part index limits { keys with lower := .included middle.key }
                  (count - middle.below) )
            (parts, draws)
      | _, _ => (none, draws)

end View

end Datalog
