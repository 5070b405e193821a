import Datalog.Proofs.Store.Index
import Datalog.Store.View

/-!
# What a view hands out

All tuples of a view have the values in the bound columns that were looked up, and every key that the
index held when the view was made is covered.  Both stay true when the index grows, and when the view
is split: a middle lies between the first and the last key of the range, so that the parts stay inside
the range, and every key of the range belongs to one of them.
-/

namespace Datalog

namespace ViewLimits

/-- The largest result to be copied can be incremented. -/
def Bounded (limits : ViewLimits) : Prop :=
  limits.maxArraySize.toNat + 1 < UInt64.size

instance (limits : ViewLimits) : Decidable limits.Bounded :=
  inferInstanceAs (Decidable (limits.maxArraySize.toNat + 1 < UInt64.size))

theorem Bounded.toNat_succ {limits : ViewLimits} (bounded : limits.Bounded) :
    (limits.maxArraySize + 1).toNat = limits.maxArraySize.toNat + 1 := by
  rw [UInt64.toNat_add]
  exact Nat.mod_eq_of_lt bounded

end ViewLimits

namespace Index

variable {arity : Nat} {index later : Index}

/-- An index keeps its entries and may have more. -/
structure Grows (later earlier : Index) : Prop where
  pattern_eq : later.pattern = earlier.pattern
  kept : ∀ entry ∈ earlier.entries, entry ∈ later.entries

theorem Grows.refl (index : Index) : index.Grows index :=
  ⟨rfl, fun _ member => member⟩

theorem Grows.trans {first second third : Index} (right : third.Grows second)
    (left : second.Grows first) : third.Grows first :=
  ⟨right.pattern_eq.trans left.pattern_eq, fun entry member =>
    right.kept entry (left.kept entry member)⟩

/-- The key of an entry starts with its bound columns. -/
theorem Valid.prefix_key_iff (valid : index.Valid arity) {entry : Entry}
    (member : entry ∈ index.entries) {front : Key}
    (length : front.length = (index.pattern.keepBound entry.tuple).length) :
    front <+: entry.key ↔ index.pattern.keepBound entry.tuple = front := by
  have tupleLength : entry.tuple.length = index.pattern.length := by
    rw [valid.tuple_length entry member, valid.arity_eq]
  rw [valid.keyed entry member, Pattern.keyOf_eq tupleLength]
  constructor
  · intro isPrefix
    have := List.prefix_of_prefix_length_le isPrefix (List.prefix_append _ _) length.le
    exact (this.eq_of_length length).symm
  · rintro rfl
    exact List.prefix_append _ _

/-- The keys of a range start with given columns. -/
def Confined (index : Index) (front : Key) (keys : KeyRange) : Prop :=
  keys.HasLength index.pattern.keyColumns.length ∧
    ∀ key : Key, key.length = index.pattern.keyColumns.length → keys.contains key = true →
      front <+: key

theorem mem_entriesIn {range : KeyRange} {entry : Entry} :
    entry ∈ index.entriesIn range ↔ entry ∈ index.entries ∧ range.contains entry.key = true := by
  simp [entriesIn]

theorem entriesIn_unbounded (index : Index) : index.entriesIn {} = index.entries := by
  simp [entriesIn, KeyRange.contains, KeyRange.isAbove, KeyRange.isBelow]

end Index

namespace View

variable {arity : Nat} {index later : Index} {front : Key} {limits : ViewLimits}

/-- The tuples of a view come from an index and start with given values in the bound columns. -/
def From (index : Index) (front : Key) : View → Prop
  | .array tuples => ∀ tuple ∈ tuples, index.pattern.keepBound tuple = front ∧
      ∃ entry ∈ index.entries, entry.tuple = tuple
  | .range keys _ => index.Confined front keys

/-- A view holds a tuple with a given key. -/
def Covers (index : Index) (key : Key) : View → Prop
  | .array tuples => ∃ tuple ∈ tuples, index.pattern.keyOf tuple = key
  | .range keys _ => keys.contains key = true ∧ ∃ entry ∈ index.entries, entry.key = key

theorem From.mono (grown : later.Grows index) {view : View} (isFrom : view.From index front) :
    view.From later front := by
  cases view with
  | array tuples =>
      intro tuple member
      obtain ⟨bound, entry, entryMember, tupleEq⟩ := isFrom tuple member
      exact ⟨grown.pattern_eq ▸ bound, entry, grown.kept entry entryMember, tupleEq⟩
  | range keys count =>
      simp only [From, Index.Confined] at isFrom ⊢
      rwa [grown.pattern_eq]

theorem Covers.mono (grown : later.Grows index) {view : View} {key : Key}
    (covers : view.Covers index key) : view.Covers later key := by
  cases view with
  | array tuples =>
      simp only [Covers] at covers ⊢
      rwa [grown.pattern_eq]
  | range keys count =>
      obtain ⟨contained, entry, member, keyEq⟩ := covers
      exact ⟨contained, entry, grown.kept entry member, keyEq⟩

end View

/-! ## Lookups -/

namespace Index

variable {arity : Nat} {index : Index} {front : Key} {limits : ViewLimits} {keys : KeyRange}

/-- A view of a range holds all its entries, whichever form it takes. -/
theorem view_eq (bounded : limits.Bounded) :
    index.view limits keys =
      if (index.entriesIn keys).length ≤ limits.maxArraySize.toNat then
        .array ((index.entriesIn keys).map (·.tuple))
      else .range keys (index.entriesIn keys).length := by
  simp only [view, bounded.toNat_succ, List.length_take]
  by_cases small : (index.entriesIn keys).length ≤ limits.maxArraySize.toNat
  · rw [if_pos (by omega), if_pos small, List.take_of_length_le (by omega)]
  · rw [if_neg (by omega), if_neg small]

theorem from_view (valid : index.Valid arity) (bounded : limits.Bounded)
    (length : ∀ tuple : Tuple, tuple.length = arity →
      front.length = (index.pattern.keepBound tuple).length)
    (confined : index.Confined front keys) : (index.view limits keys).From index front := by
  rw [view_eq bounded]
  split
  · intro tuple member
    obtain ⟨entry, entryMember, rfl⟩ := List.mem_map.mp member
    obtain ⟨inIndex, inRange⟩ := mem_entriesIn.mp entryMember
    refine ⟨?_, entry, inIndex, rfl⟩
    have isPrefix := confined.2 entry.key (valid.key_length inIndex) inRange
    exact (valid.prefix_key_iff inIndex (length _ (valid.tuple_length entry inIndex))).mp isPrefix
  · exact confined

theorem covers_view (valid : index.Valid arity) (bounded : limits.Bounded) {entry : Entry}
    (member : entry ∈ index.entries) (inRange : keys.contains entry.key = true) :
    (index.view limits keys).Covers index entry.key := by
  rw [view_eq bounded]
  split
  · exact ⟨entry.tuple, List.mem_map_of_mem (mem_entriesIn.mpr ⟨member, inRange⟩),
      (valid.keyed entry member).symm⟩
  · exact ⟨inRange, entry, member, rfl⟩

theorem length_view (bounded : limits.Bounded) :
    (index.view limits keys).length = (index.entriesIn keys).length := by
  rw [view_eq bounded]
  split <;> simp [View.length]

theorem confined_rangeOf (fits : front.length ≤ index.pattern.keyColumns.length) :
    index.Confined front (index.rangeOf front) := by
  refine ⟨KeyRange.hasLength_ofFront fits, fun key length contained => ?_⟩
  rw [rangeOf, ← length] at contained
  exact (KeyRange.contains_ofFront (length ▸ fits)).mp contained

theorem contains_rangeOf (valid : index.Valid arity) {entry : Entry}
    (member : entry ∈ index.entries)
    (fits : front.length ≤ index.pattern.keyColumns.length) :
    (index.rangeOf front).contains entry.key = true ↔ front <+: entry.key := by
  have length := valid.key_length member
  rw [rangeOf, ← length]
  exact KeyRange.contains_ofFront (length ▸ fits)

end Index

/-! ## Guessing a middle -/

namespace Split

theorem rank_cons (id : TermId) (key : Key) :
    Key.rank (id :: key) = id.raw.toNat * Key.radix ^ key.length + Key.rank key :=
  rfl

theorem rank_cons_lt {id id' : TermId} {key key' : Key} (sameLength : key.length = key'.length)
    (less : id.raw.toNat < id'.raw.toNat) : Key.rank (id :: key) < Key.rank (id' :: key') := by
  rw [← Key.lt_iff_rank_lt (by simp [sameLength])]
  exact List.cons_lt_cons_iff.mpr (.inl less)

theorem toNat_ofNat_of_lt {raw : Nat} (small : raw < Key.radix) :
    (⟨.ofNat raw⟩ : TermId).raw.toNat = raw :=
  UInt32.toNat_ofNat_of_lt' small

theorem between_bounds (draws : Draws) {low high : Nat} (nonempty : low < high) :
    low ≤ (draws.between low high).1 ∧ (draws.between low high).1 < high := by
  have := Nat.mod_lt (draws.number draws.used) (Nat.sub_pos_of_lt nonempty)
  simp only [Draws.between]
  omega

theorem nextRaw_le (raw : Nat) : nextRaw raw ≤ raw + 1 :=
  Nat.min_le_left _ _

theorem nextRaw_lt (raw : Nat) : nextRaw raw < Key.radix :=
  Nat.lt_of_le_of_lt (Nat.min_le_right _ _) (Key.toNat_lt_radix _)

/-- Keys are ordered by the first column, and by the others where it is the same. -/
theorem rank_cons_le {id id' : TermId} {key key' : Key} (sameLength : key.length = key'.length)
    (atMost : id.raw.toNat ≤ id'.raw.toNat)
    (rest : id.raw.toNat = id'.raw.toNat → Key.rank key ≤ Key.rank key') :
    Key.rank (id :: key) ≤ Key.rank (id' :: key') := by
  rcases Nat.lt_or_eq_of_le atMost with less | same
  · exact (rank_cons_lt sameLength less).le
  · rw [rank_cons, rank_cons, same, sameLength]
    exact Nat.add_le_add_left (rest same) _

/-- The first columns of two keys are in order if the keys are. -/
theorem digits_le_of_rank_le {id id' : TermId} {key key' : Key} (sameLength : key.length = key'.length)
    (ordered : Key.rank (id :: key) ≤ Key.rank (id' :: key')) : id.raw.toNat ≤ id'.raw.toNat := by
  by_contra greater
  have := rank_cons_lt sameLength.symm (Nat.lt_of_not_le greater)
  omega

theorem rank_le_of_rank_cons_le {id id' : TermId} {key key' : Key}
    (sameLength : key.length = key'.length) (same : id.raw.toNat = id'.raw.toNat)
    (ordered : Key.rank (id :: key) ≤ Key.rank (id' :: key')) : Key.rank key ≤ Key.rank key' := by
  rw [rank_cons, rank_cons, same, sameLength] at ordered
  exact Nat.le_of_add_le_add_left ordered

/-- A digit is drawn between two bounds; if there is none, it is the lower bound. -/
theorem digit_between {lowBound highBound raw : Nat} {draws rest : Draws}
    (drawEq : (if lowBound < highBound then draws.between lowBound highBound else (lowBound, draws)) =
      (raw, rest)) : lowBound ≤ raw ∧ (raw < highBound ∨ raw = lowBound) := by
  by_cases nonempty : lowBound < highBound
  · rw [if_pos nonempty] at drawEq
    have bounds := between_bounds draws nonempty
    rw [drawEq] at bounds
    exact ⟨bounds.1, .inl bounds.2⟩
  · rw [if_neg nonempty] at drawEq
    cases drawEq
    exact ⟨Nat.le_refl _, .inr rfl⟩

/-- The digit of a column is one of an id, and it lies between those of two keys where these count. -/
theorem digit_within {bound low high raw : Nat} {aboveFirst belowLast : Bool} {draws rest : Draws}
    (boundSmall : bound < Key.radix) (lowSmall : low < Key.radix)
    (ordered : aboveFirst = false → belowLast = false → low ≤ high)
    (drawEq : (if (if aboveFirst then 0 else low) < (if belowLast then bound else nextRaw high) then
        draws.between (if aboveFirst then 0 else low) (if belowLast then bound else nextRaw high)
      else (if aboveFirst then 0 else low, draws)) = (raw, rest)) :
    raw < Key.radix ∧ (aboveFirst = false → low ≤ raw) ∧ (belowLast = false → raw ≤ high) := by
  have digit := digit_between drawEq
  have nextSmall := nextRaw_lt high
  have highNext := nextRaw_le high
  cases aboveFirst <;> cases belowLast <;>
    simp only [Bool.false_eq_true, if_false, if_true, forall_const, reduceCtorEq,
      false_implies, and_true, true_and] at digit ordered ⊢ <;>
    omega

/-- The columns that are guessed make up a key that is not below the first unless it is allowed to
be, and not above the last unless it is allowed to be. -/
theorem guessColumns_between {bound : Nat} (boundSmall : bound < Key.radix)
    (aboveFirst belowLast : Bool) {first last : Key} (draws : Draws)
    (sameLength : first.length = last.length)
    (ordered : aboveFirst = false → belowLast = false → Key.rank first ≤ Key.rank last) :
    (guessColumns bound aboveFirst belowLast first last draws).1.length = first.length ∧
      (aboveFirst = false →
        Key.rank first ≤ Key.rank (guessColumns bound aboveFirst belowLast first last draws).1) ∧
      (belowLast = false →
        Key.rank (guessColumns bound aboveFirst belowLast first last draws).1 ≤ Key.rank last) := by
  induction first generalizing last aboveFirst belowLast draws with
  | nil =>
      obtain rfl : last = [] := List.length_eq_zero_iff.mp sameLength.symm
      simp [guessColumns]
  | cons low first ih =>
      cases last with
      | nil => simp at sameLength
      | cons high last =>
          have sameTail : first.length = last.length := by simpa using sameLength
          simp only [guessColumns]
          generalize drawEq : (if (if aboveFirst then 0 else low.raw.toNat) <
              (if belowLast then bound else nextRaw high.raw.toNat) then
              draws.between (if aboveFirst then 0 else low.raw.toNat)
                (if belowLast then bound else nextRaw high.raw.toNat)
            else (if aboveFirst then 0 else low.raw.toNat, draws)) = drawn
          obtain ⟨raw, rest⟩ := drawn
          dsimp only
          obtain ⟨rawSmall, aboveLow, belowHigh⟩ := digit_within boundSmall
            (Key.toNat_lt_radix low)
            (fun notAbove notBelow => digits_le_of_rank_le sameTail (ordered notAbove notBelow)) drawEq
          have rawEq := toNat_ofNat_of_lt rawSmall
          -- Where both keys still count, their digits in this column are the one that was drawn.
          obtain ⟨tailLength, tailAbove, tailBelow⟩ :=
            ih (aboveFirst || decide (low.raw.toNat < raw))
              (belowLast || decide (raw < high.raw.toNat)) rest sameTail (by
                simp only [Bool.or_eq_false_iff, decide_eq_false_iff_not]
                rintro ⟨notAbove, noLess⟩ ⟨notBelow, noGreater⟩
                have := aboveLow notAbove
                have := belowHigh notBelow
                exact rank_le_of_rank_cons_le sameTail (by omega) (ordered notAbove notBelow))
          generalize guessColumns bound (aboveFirst || decide (low.raw.toNat < raw))
            (belowLast || decide (raw < high.raw.toNat)) first last rest = guess
            at tailLength tailAbove tailBelow ⊢
          refine ⟨by simp [tailLength], fun notAbove => ?_, fun notBelow => ?_⟩
          · refine rank_cons_le tailLength.symm (by rw [rawEq]; exact aboveLow notAbove) fun same => ?_
            exact tailAbove (by simp [notAbove, same, rawEq])
          · refine rank_cons_le (tailLength.trans sameTail) (by rw [rawEq]; exact belowHigh notBelow)
              fun same => ?_
            exact tailBelow (by simp [notBelow, ← same, rawEq])

theorem boundOf_lt (first last : Key) : boundOf first last < Key.radix :=
  nextRaw_lt _

/-- A guess lies between the two keys. -/
theorem guessMiddle_between {first last : Key} (draws : Draws)
    (sameLength : first.length = last.length) (ordered : Key.rank first ≤ Key.rank last) :
    (guessMiddle first last draws).1.length = first.length ∧
      Key.rank first ≤ Key.rank (guessMiddle first last draws).1 ∧
        Key.rank (guessMiddle first last draws).1 ≤ Key.rank last := by
  obtain ⟨length, above, below⟩ := guessColumns_between (boundOf_lt first last) false false draws
    sameLength fun _ _ => ordered
  exact ⟨length, above rfl, below rfl⟩

/-- A middle is a key between the two keys. -/
def Middle.Between (first last : Key) (middle : Middle) : Prop :=
  middle.key.length = first.length ∧ Key.rank first ≤ Key.rank middle.key ∧
    Key.rank middle.key ≤ Key.rank last

/-- A middle that is found is one that was there before, or a guess with entries on both sides. -/
theorem findMiddle_of_guess {index : Index} {keys : KeyRange} {count guesses : Nat}
    {first last : Key} {best : Option Middle} {draws : Draws} {suits : Middle → Prop}
    (bestSuits : ∀ middle ∈ best, suits middle)
    (guessSuits : ∀ draws below,
      below = (index.entriesIn
        { keys with upper := .excluded (guessMiddle first last draws).1 }).length →
          0 < below → below < count → suits { key := (guessMiddle first last draws).1, below }) :
    ∀ middle ∈ (findMiddle index keys count first last guesses best draws).1, suits middle := by
  induction guesses generalizing best draws with
  | zero => exact bestSuits
  | succ guesses ih =>
      simp only [findMiddle]
      split
      · exact ih bestSuits
      · next useful =>
          simp only [Bool.or_eq_true, decide_eq_true_eq, not_or, Nat.not_le] at useful
          have suits := guessSuits draws _ rfl (Nat.pos_of_ne_zero useful.1.1) useful.1.2
          split
          · rintro middle ⟨⟩
            exact suits
          · refine ih ?_
            rintro middle ⟨⟩
            exact suits

theorem findMiddle_between {index : Index} {keys : KeyRange} {count guesses : Nat}
    {first last : Key} {best : Option Middle} {draws : Draws}
    (sameLength : first.length = last.length) (ordered : Key.rank first ≤ Key.rank last)
    (bestBetween : ∀ middle ∈ best, middle.Between first last) :
    ∀ middle ∈ (findMiddle index keys count first last guesses best draws).1,
      middle.Between first last :=
  findMiddle_of_guess bestBetween fun draws _ _ _ _ => guessMiddle_between draws sameLength ordered

/-- The entries of a range below a middle have been counted, and there are others. -/
structure Middle.Counts (index : Index) (keys : KeyRange) (count : Nat) (middle : Middle) : Prop where
  below_eq : middle.below = (index.entriesIn { keys with upper := .excluded middle.key }).length
  pos : 0 < middle.below
  lt : middle.below < count

theorem from_part {arity : Nat} {index : Index} {limits : ViewLimits} {front : Key}
    {keys : KeyRange} {count : Nat} (valid : index.Valid arity) (bounded : limits.Bounded)
    (length : ∀ tuple : Tuple, tuple.length = arity →
      front.length = (index.pattern.keepBound tuple).length)
    (confined : index.Confined front keys) :
    (part index limits keys count).From index front := by
  unfold part
  split
  · exact Index.from_view valid bounded length confined
  · exact confined

theorem covers_part {arity : Nat} {index : Index} {limits : ViewLimits} {keys : KeyRange}
    {count : Nat} (valid : index.Valid arity) (bounded : limits.Bounded) {entry : Entry}
    (member : entry ∈ index.entries) (inRange : keys.contains entry.key = true) :
    (part index limits keys count).Covers index entry.key := by
  unfold part
  split
  · exact Index.covers_view valid bounded member inRange
  · exact ⟨inRange, entry, member, rfl⟩

end Split

/-! ## Splitting -/

namespace KeyRange

theorem RankAbove.mono {bound : KeyBound} {rank rank' : Nat} (above : RankAbove rank bound)
    (le : rank ≤ rank') : RankAbove rank' bound := by
  cases bound <;> simp only [RankAbove] at above ⊢ <;> omega

theorem RankBelow.mono {bound : KeyBound} {rank rank' : Nat} (below : RankBelow rank bound)
    (le : rank' ≤ rank) : RankBelow rank' bound := by
  cases bound <;> simp only [RankBelow] at below ⊢ <;> omega

theorem HasLength.withUpper {length : Nat} {range : KeyRange} (hasLength : range.HasLength length)
    {key : Key} (keyLength : key.length = length) :
    HasLength length { range with upper := .excluded key } := by
  refine ⟨hasLength.1, ?_⟩
  rintro other (same | same) <;> cases same
  exact keyLength

theorem HasLength.withLower {length : Nat} {range : KeyRange} (hasLength : range.HasLength length)
    {key : Key} (keyLength : key.length = length) (bound : KeyBound)
    (bounds : bound = .included key ∨ bound = .excluded key) :
    HasLength length { range with lower := bound } := by
  refine ⟨?_, hasLength.2⟩
  rcases bounds with rfl | rfl
  · rintro other (same | same) <;> cases same
    exact keyLength
  · rintro other (same | same) <;> cases same
    exact keyLength

end KeyRange

/-- A key between two keys of a range belongs to the range. -/
theorem Split.Middle.Between.inside {first last : Key} {middle : Split.Middle}
    (between : middle.Between first last) {keys : KeyRange} {length : Nat}
    (hasLength : keys.HasLength length) (firstLength : first.length = length)
    (lastLength : last.length = length) (firstIn : keys.contains first = true)
    (lastIn : keys.contains last = true) :
    middle.key.length = length ∧ keys.contains middle.key = true := by
  obtain ⟨middleLength, aboveFirst, belowLast⟩ := between
  have middleLength := middleLength.trans firstLength
  rw [KeyRange.contains_iff (firstLength ▸ hasLength)] at firstIn
  rw [KeyRange.contains_iff (lastLength ▸ hasLength)] at lastIn
  refine ⟨middleLength, ?_⟩
  rw [KeyRange.contains_iff (middleLength ▸ hasLength)]
  exact ⟨firstIn.1.mono aboveFirst, lastIn.2.mono belowLast⟩

namespace View

variable {arity : Nat} {index : Index} {front : Key} {limits : ViewLimits}

/-- What the parts of a range hold together, and that they stay inside of it. -/
private theorem parts_of_middle {keys : KeyRange} {first last : Entry} {middle : Split.Middle}
    (confined : index.Confined front keys) (firstLength : first.key.length = index.pattern.keyColumns.length)
    (lastLength : last.key.length = index.pattern.keyColumns.length)
    (firstIn : keys.contains first.key = true) (lastIn : keys.contains last.key = true)
    (between : middle.Between first.key last.key) :
    index.Confined front { keys with upper := .excluded middle.key } ∧
      index.Confined front { keys with lower := .included middle.key } ∧
        ∀ key : Key, key.length = index.pattern.keyColumns.length → keys.contains key = true →
          { keys with upper := .excluded middle.key : KeyRange }.contains key = true ∨
            { keys with lower := .included middle.key : KeyRange }.contains key = true := by
  obtain ⟨hasLength, starts⟩ := confined
  obtain ⟨middleLength, aboveFirst, belowLast⟩ := between
  have middleLength := middleLength.trans firstLength
  have lowLength := hasLength.withUpper middleLength
  have highLength := hasLength.withLower middleLength (.included middle.key) (.inl rfl)
  rw [KeyRange.contains_iff (firstLength ▸ hasLength)] at firstIn
  rw [KeyRange.contains_iff (lastLength ▸ hasLength)] at lastIn
  refine ⟨⟨lowLength, fun key length contained => starts key length ?_⟩,
    ⟨highLength, fun key length contained => starts key length ?_⟩, fun key length contained => ?_⟩
  · rw [KeyRange.contains_iff (length ▸ lowLength)] at contained
    rw [KeyRange.contains_iff (length ▸ hasLength)]
    have below : Key.rank key < Key.rank middle.key := contained.2
    exact ⟨contained.1, lastIn.2.mono (by omega)⟩
  · rw [KeyRange.contains_iff (length ▸ highLength)] at contained
    rw [KeyRange.contains_iff (length ▸ hasLength)]
    have above : Key.rank middle.key ≤ Key.rank key := contained.1
    exact ⟨firstIn.1.mono (by omega), contained.2⟩
  · rw [KeyRange.contains_iff (length ▸ hasLength)] at contained
    rw [KeyRange.contains_iff (length ▸ lowLength), KeyRange.contains_iff (length ▸ highLength)]
    rcases Nat.lt_or_ge (Key.rank key) (Key.rank middle.key) with below | above
    · exact .inl ⟨contained.1, below⟩
    · exact .inr ⟨above, contained.2⟩

/-- The keys of the first and last entry of a range are in order. -/
theorem rank_head_le_getLast {keys : KeyRange} {first last : Entry} (valid : index.Valid arity)
    (headEq : (index.entriesIn keys).head? = some first)
    (lastEq : (index.entriesIn keys).getLast? = some last) :
    Key.rank first.key ≤ Key.rank last.key :=
  valid.rank_le_getLast List.filter_sublist (List.mem_of_head? headEq) lastEq

/-- A range is split at a key between two of its entries, and has entries on both sides of it. -/
theorem exists_middle_of_split (valid : index.Valid arity) {keys : KeyRange} {count : Nat}
    {left right : View} {draws : Draws}
    (splitEq : ((View.range keys count).split index limits draws).1 = some (left, right)) :
    ∃ first ∈ index.entriesIn keys, ∃ last ∈ index.entriesIn keys, ∃ middle : Split.Middle,
      middle.Between first.key last.key ∧ middle.Counts index keys count ∧
        left = Split.part index limits { keys with upper := .excluded middle.key } middle.below ∧
          right = Split.part index limits { keys with lower := .included middle.key }
            (count - middle.below) := by
  simp only [split] at splitEq
  split at splitEq
  · next first last headEq lastEq =>
      split at splitEq
      · simp at splitEq
      · obtain ⟨middle, middleEq, partsEq⟩ := Option.map_eq_some_iff.mp splitEq
        obtain ⟨rfl, rfl⟩ := Prod.mk.inj partsEq
        have firstMember := List.mem_of_head? headEq
        have lastMember := List.mem_of_getLast? lastEq
        have sameLength : first.key.length = last.key.length := by
          rw [valid.key_length (Index.mem_entriesIn.mp firstMember).1,
            valid.key_length (Index.mem_entriesIn.mp lastMember).1]
        have between := Split.findMiddle_between sameLength
          (rank_head_le_getLast valid headEq lastEq) (by simp) middle middleEq
        have counts : middle.Counts index keys count := by
          refine Split.findMiddle_of_guess ?_ ?_ middle middleEq
          · simp
          · exact fun draws below belowEq pos lt => ⟨belowEq, pos, lt⟩
        exact ⟨first, firstMember, last, lastMember, middle, between, counts, rfl, rfl⟩
  · simp at splitEq

/-- The parts of a range stay inside of it and hold it together. -/
theorem exists_parts_of_split (valid : index.Valid arity) {keys : KeyRange} {count : Nat}
    {left right : View} {draws : Draws} (confined : index.Confined front keys)
    (splitEq : ((View.range keys count).split index limits draws).1 = some (left, right)) :
    ∃ middle : Split.Middle,
      left = Split.part index limits { keys with upper := .excluded middle.key } middle.below ∧
      right = Split.part index limits { keys with lower := .included middle.key }
        (count - middle.below) ∧
      index.Confined front { keys with upper := .excluded middle.key } ∧
      index.Confined front { keys with lower := .included middle.key } ∧
      ∀ key : Key, key.length = index.pattern.keyColumns.length → keys.contains key = true →
        { keys with upper := .excluded middle.key : KeyRange }.contains key = true ∨
          { keys with lower := .included middle.key : KeyRange }.contains key = true := by
  obtain ⟨first, firstMember, last, lastMember, middle, between, -, leftEq, rightEq⟩ :=
    exists_middle_of_split valid splitEq
  obtain ⟨firstInIndex, firstIn⟩ := Index.mem_entriesIn.mp firstMember
  obtain ⟨lastInIndex, lastIn⟩ := Index.mem_entriesIn.mp lastMember
  exact ⟨middle, leftEq, rightEq, parts_of_middle confined (valid.key_length firstInIndex)
    (valid.key_length lastInIndex) firstIn lastIn between⟩

/-- The parts of a view come from where the view comes from. -/
theorem from_split (valid : index.Valid arity) (bounded : limits.Bounded)
    (length : ∀ tuple : Tuple, tuple.length = arity →
      front.length = (index.pattern.keepBound tuple).length)
    {view left right : View} (isFrom : view.From index front) {draws : Draws}
    (splitEq : (view.split index limits draws).1 = some (left, right)) :
    left.From index front ∧ right.From index front := by
  cases view with
  | array tuples =>
      simp only [split] at splitEq
      split at splitEq
      · simp at splitEq
      · simp only [Option.some.injEq, Prod.mk.injEq] at splitEq
        obtain ⟨rfl, rfl⟩ := splitEq
        exact ⟨fun tuple member => isFrom tuple (List.mem_of_mem_take member),
          fun tuple member => isFrom tuple (List.mem_of_mem_drop member)⟩
  | range keys count =>
      obtain ⟨middle, rfl, rfl, low, high, -⟩ := exists_parts_of_split valid isFrom splitEq
      exact ⟨Split.from_part valid bounded length low, Split.from_part valid bounded length high⟩

/-- What a view covers is covered by one of its parts. -/
theorem covers_split (valid : index.Valid arity) (bounded : limits.Bounded)
    {view left right : View} (isFrom : view.From index front) {draws : Draws}
    (splitEq : (view.split index limits draws).1 = some (left, right)) {key : Key}
    (covers : view.Covers index key) : left.Covers index key ∨ right.Covers index key := by
  cases view with
  | array tuples =>
      simp only [split] at splitEq
      split at splitEq
      · simp at splitEq
      · simp only [Option.some.injEq, Prod.mk.injEq] at splitEq
        obtain ⟨rfl, rfl⟩ := splitEq
        obtain ⟨tuple, member, keyEq⟩ := covers
        rw [← List.take_append_drop (tuples.length / 2) tuples, List.mem_append] at member
        exact member.imp (fun member => ⟨tuple, member, keyEq⟩) fun member => ⟨tuple, member, keyEq⟩
  | range keys count =>
      obtain ⟨middle, rfl, rfl, -, -, both⟩ := exists_parts_of_split valid isFrom splitEq
      obtain ⟨inRange, entry, member, rfl⟩ := covers
      exact (both entry.key (valid.key_length member) inRange).imp
        (Split.covers_part valid bounded member) (Split.covers_part valid bounded member)

end View

/-! ## Reading in chunks -/

namespace KeyRange

/-- How many keys there are above the lower end of a range. -/
def keysLeft (length : Nat) (range : KeyRange) : Nat :=
  match range.lower with
  | .excluded key => Key.radix ^ length - (Key.rank key + 1)
  | _ => Key.radix ^ length

theorem keysLeft_le (length : Nat) (range : KeyRange) :
    keysLeft length range ≤ Key.radix ^ length := by
  unfold keysLeft
  split
  · exact Nat.sub_le _ _
  · exact Nat.le_refl _

/-- Raising the lower end to a key of the range leaves fewer keys. -/
theorem keysLeft_lt {range : KeyRange} {key : Key}
    (hasLength : range.HasLength key.length) (contained : range.contains key = true) :
    keysLeft key.length { range with lower := .excluded key } < keysLeft key.length range := by
  have small := Key.rank_lt key
  have above := ((contains_iff hasLength).mp contained).1
  obtain ⟨lower, upper⟩ := range
  cases lower with
  | unbounded =>
      simp only [keysLeft]
      omega
  | included bound =>
      simp only [keysLeft]
      omega
  | excluded bound =>
      simp only [keysLeft, RankAbove] at above ⊢
      omega

end KeyRange

namespace Index

variable {arity : Nat} {index : Index} {keys : KeyRange}

theorem mem_readChunk {tuple : Tuple} (member : tuple ∈ (index.readChunk keys).1) :
    ∃ entry ∈ index.entries, keys.contains entry.key = true ∧ entry.tuple = tuple := by
  obtain ⟨entry, entryMember, rfl⟩ := List.mem_map.mp member
  obtain ⟨inIndex, inRange⟩ := mem_entriesIn.mp (List.mem_of_mem_take entryMember)
  exact ⟨entry, inIndex, inRange, rfl⟩

/-- The entries of a range are read in this chunk or lie in what is left to read. -/
theorem mem_readChunk_or_rest (valid : index.Valid arity)
    (hasLength : keys.HasLength index.pattern.keyColumns.length) {entry : Entry}
    (member : entry ∈ index.entries) (inRange : keys.contains entry.key = true) :
    entry.tuple ∈ (index.readChunk keys).1 ∨
      ∃ rest ∈ (index.readChunk keys).2, rest.contains entry.key = true := by
  have found := mem_entriesIn.mpr ⟨member, inRange⟩
  have sorted : (index.entriesIn keys).Pairwise fun first second => first.key < second.key :=
    valid.sorted.filter _
  rw [← List.take_append_drop chunkSize (index.entriesIn keys)] at found sorted
  rcases List.mem_append.mp found with inChunk | later
  · exact .inl (List.mem_map_of_mem inChunk)
  · right
    have full : ¬ ((index.entriesIn keys).take chunkSize).length < chunkSize := by
      intro short
      rw [List.drop_eq_nil_of_le (by rw [List.length_take] at short; omega)] at later
      simp at later
    have nonempty : (index.entriesIn keys).take chunkSize ≠ [] := by
      intro empty
      rw [empty] at full
      simp [chunkSize] at full
    have lastEq := List.getLast?_eq_some_getLast nonempty
    generalize ((index.entriesIn keys).take chunkSize).getLast nonempty = last at lastEq
    refine ⟨{ keys with lower := .excluded last.key }, ?_, ?_⟩
    · simp only [readChunk, if_neg full, lastEq]
      rfl
    · have lastMember : last ∈ index.entriesIn keys :=
        List.mem_of_mem_take (List.mem_of_getLast? lastEq)
      have lastLength := valid.key_length (mem_entriesIn.mp lastMember).1
      have length := valid.key_length member
      have less := (List.pairwise_append.mp sorted).2.2 last (List.mem_of_getLast? lastEq) entry later
      rw [Key.lt_iff_rank_lt (lastLength.trans length.symm)] at less
      have raised := hasLength.withLower lastLength (.excluded last.key) (.inr rfl)
      rw [KeyRange.contains_iff (length ▸ raised)]
      rw [KeyRange.contains_iff (length ▸ hasLength)] at inRange
      exact ⟨less, inRange.2⟩

/-- What is left to read is part of the range and smaller. -/
theorem rest_of_readChunk (valid : index.Valid arity)
    (hasLength : keys.HasLength index.pattern.keyColumns.length) {rest : KeyRange}
    (restEq : (index.readChunk keys).2 = some rest) :
    rest.HasLength index.pattern.keyColumns.length ∧
      (∀ key : Key, key.length = index.pattern.keyColumns.length → rest.contains key = true →
        keys.contains key = true) ∧
        rest.keysLeft index.pattern.keyColumns.length <
          keys.keysLeft index.pattern.keyColumns.length := by
  simp only [readChunk] at restEq
  split at restEq
  · simp at restEq
  · obtain ⟨last, lastEq, rfl⟩ := Option.map_eq_some_iff.mp restEq
    have lastMember : last ∈ index.entriesIn keys :=
      List.mem_of_mem_take (List.mem_of_getLast? lastEq)
    obtain ⟨lastInIndex, lastIn⟩ := mem_entriesIn.mp lastMember
    have lastLength := valid.key_length lastInIndex
    have raised := hasLength.withLower lastLength (.excluded last.key) (.inr rfl)
    refine ⟨raised, fun key length contained => ?_, ?_⟩
    · rw [KeyRange.contains_iff (length ▸ raised)] at contained
      rw [KeyRange.contains_iff (length ▸ hasLength)]
      rw [KeyRange.contains_iff (lastLength ▸ hasLength)] at lastIn
      have above : Key.rank last.key < Key.rank key := contained.1
      exact ⟨lastIn.1.mono above.le, contained.2⟩
    · have := KeyRange.keysLeft_lt (lastLength ▸ hasLength) lastIn
      rwa [lastLength] at this

/-- What is left to read lies above what is read in this chunk. -/
theorem below_rest_of_readChunk (valid : index.Valid arity)
    (hasLength : keys.HasLength index.pattern.keyColumns.length) {rest : KeyRange}
    (restEq : (index.readChunk keys).2 = some rest) {tuple : Tuple}
    (member : tuple ∈ (index.readChunk keys).1) {key : Key}
    (length : key.length = index.pattern.keyColumns.length) (contained : rest.contains key = true) :
    index.pattern.keyOf tuple < key := by
  have raised := (rest_of_readChunk valid hasLength restEq).1
  obtain ⟨entry, entryMember, rfl⟩ := List.mem_map.mp member
  simp only [readChunk] at restEq
  split at restEq
  · simp at restEq
  · obtain ⟨last, lastEq, rfl⟩ := Option.map_eq_some_iff.mp restEq
    have listed : ((index.entriesIn keys).take chunkSize).Sublist index.entries :=
      (List.take_sublist _ _).trans List.filter_sublist
    have inIndex := listed.subset entryMember
    have notAbove := valid.rank_le_getLast listed entryMember lastEq
    rw [KeyRange.contains_iff (length ▸ raised)] at contained
    rw [← valid.keyed entry inIndex, Key.lt_iff_rank_lt ((valid.key_length inIndex).trans length.symm)]
    exact Nat.lt_of_le_of_lt notAbove contained.1

end Index

end Datalog
