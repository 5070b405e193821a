import Datalog.Proofs.Store.Reading

/-!
# Dividing cursors

A cursor has taken some tuples from an index, which are its buffer, and did not look at the rest yet.
When a view is split, copied, read on or given up at its end, its cursor is replaced by others that
divide what it has read and what it may still read, the lower keys first.  They do so for good, since
additions to the index keep its entries.
-/

namespace Datalog

variable {arity : Nat} {index later : Index} {limits : ViewLimits} {keys : KeyRange}

namespace Cursor

/-- The key is that of a tuple in the buffer, or may still be read. -/
def Reaches (pattern : Pattern) (cursor : Cursor) (key : Key) : Prop :=
  (∃ tuple ∈ cursor.buffer, pattern.keyOf tuple = key) ∨
    key.length = pattern.keyColumns.length ∧ ∃ keys ∈ cursor.rest, keys.contains key = true

/-- The buffer holds tuples of an index in the order of their keys, and the rest lies above them. -/
structure Valid (index : Index) (cursor : Cursor) : Prop where
  stored : ∀ tuple ∈ cursor.buffer, tuple ∈ index.tuples
  sorted : cursor.buffer.Pairwise fun first second =>
    index.pattern.keyOf first < index.pattern.keyOf second
  ahead : ∀ keys ∈ cursor.rest, ∀ tuple ∈ cursor.buffer, ∀ key : Key,
    key.length = index.pattern.keyColumns.length → keys.contains key = true →
      index.pattern.keyOf tuple < key
  hasLength : ∀ keys ∈ cursor.rest, keys.HasLength index.pattern.keyColumns.length

/-- The cursors of parts, the lower keys first.  Of some entries of the index none is lost, except at
the limit on copies that wraps around. -/
structure Divides (index : Index) (limits : ViewLimits) (entries : List Entry) (whole : Cursor)
    (parts : List Cursor) : Prop where
  valid : ∀ part ∈ parts, part.Valid index
  ordered : parts.Pairwise fun lower upper => ∀ key key',
    lower.Reaches index.pattern key → upper.Reaches index.pattern key' → key < key'
  inside : ∀ part ∈ parts, ∀ key, part.Reaches index.pattern key → whole.Reaches index.pattern key
  covers : limits.Bounded → ∀ entry ∈ entries, whole.Reaches index.pattern entry.key →
    ∃ part ∈ parts, part.Reaches index.pattern entry.key

theorem reaches_array {pattern : Pattern} {tuples : List Tuple} {key : Key} :
    Reaches pattern { buffer := tuples, rest := none } key ↔
      ∃ tuple ∈ tuples, pattern.keyOf tuple = key := by
  simp [Reaches]

theorem reaches_range {pattern : Pattern} {key : Key} :
    Reaches pattern { buffer := [], rest := some keys } key ↔
      key.length = pattern.keyColumns.length ∧ keys.contains key = true := by
  simp [Reaches]

theorem valid_range (hasLength : keys.HasLength index.pattern.keyColumns.length) :
    Valid index { buffer := [], rest := some keys } := by
  refine ⟨by simp, .nil, by simp, ?_⟩
  rintro _ ⟨⟩
  exact hasLength

theorem Valid.mono {cursor : Cursor} (valid : cursor.Valid index) (grown : later.Grows index) :
    cursor.Valid later := by
  obtain ⟨stored, sorted, ahead, hasLength⟩ := valid
  rw [← grown.pattern_eq] at sorted ahead hasLength
  refine ⟨fun tuple member => ?_, sorted, ahead, hasLength⟩
  obtain ⟨entry, entryMember, rfl⟩ := List.mem_map.mp (stored tuple member)
  exact List.mem_map_of_mem (grown.kept entry entryMember)

namespace Divides

variable {entries : List Entry} {whole part : Cursor} {before parts after : List Cursor}

theorem mono (divides : Divides index limits entries whole parts) (grown : later.Grows index) :
    Divides later limits entries whole parts := by
  obtain ⟨valid, ordered, inside, covers⟩ := divides
  rw [← grown.pattern_eq] at ordered inside covers
  exact ⟨fun part member => (valid part member).mono grown, ordered, inside, covers⟩

theorem single (valid : part.Valid index)
    (inside : ∀ key, part.Reaches index.pattern key → whole.Reaches index.pattern key)
    (covers : limits.Bounded → ∀ entry ∈ entries, whole.Reaches index.pattern entry.key →
      part.Reaches index.pattern entry.key) :
    Divides index limits entries whole [part] where
  valid := by simpa using valid
  ordered := List.pairwise_singleton _ _
  inside := by simpa using inside
  covers := by simpa using covers

theorem refl (valid : part.Valid index) : Divides index limits entries part [part] :=
  single valid (fun _ => id) fun _ _ _ => id

theorem replace (divides : Divides index limits entries whole (before ++ part :: after))
    (kept : ∀ entry ∈ entries, entry ∈ index.entries)
    (divided : Divides index limits index.entries part parts) :
    Divides index limits entries whole (before ++ parts ++ after) := by
  -- The new parts reach only what the old one did, so that they can stand in its place.
  have others : ∀ other, other ∈ before ∨ other ∈ after → other ∈ before ++ part :: after := by
    rintro other (member | member) <;> simp [member]
  have here : part ∈ before ++ part :: after := by simp
  refine ⟨fun other member => ?_, ?_, fun other member key reaches => ?_,
    fun bounded entry member reaches => ?_⟩
  · simp only [List.mem_append, or_assoc] at member
    rcases member with member | member | member
    · exact divides.valid other (others other (.inl member))
    · exact divided.valid other member
    · exact divides.valid other (others other (.inr member))
  · obtain ⟨beforeOrdered, restOrdered, across⟩ := List.pairwise_append.mp divides.ordered
    obtain ⟨partBelow, afterOrdered⟩ := List.pairwise_cons.mp restOrdered
    rw [List.append_assoc, List.pairwise_append, List.pairwise_append]
    refine ⟨beforeOrdered, ⟨divided.ordered, afterOrdered, ?_⟩, ?_⟩
    · intro lower lowerMember upper upperMember key key' reaches reaches'
      exact partBelow upper upperMember key key' (divided.inside lower lowerMember key reaches) reaches'
    · intro lower lowerMember upper upperMember key key' reaches reaches'
      rcases List.mem_append.mp upperMember with upperMember | upperMember
      · exact across lower lowerMember part List.mem_cons_self key key' reaches
          (divided.inside upper upperMember key' reaches')
      · exact across lower lowerMember upper (List.mem_cons_of_mem _ upperMember) key key' reaches
          reaches'
  · simp only [List.mem_append, or_assoc] at member
    rcases member with member | member | member
    · exact divides.inside other (others other (.inl member)) key reaches
    · exact divides.inside part here key (divided.inside other member key reaches)
    · exact divides.inside other (others other (.inr member)) key reaches
  · obtain ⟨other, otherMember, otherReaches⟩ := divides.covers bounded entry member reaches
    rcases List.mem_append.mp otherMember with inBefore | otherMember
    · exact ⟨other, by simp [inBefore], otherReaches⟩
    · rcases List.mem_cons.mp otherMember with rfl | inAfter
      · obtain ⟨inner, innerMember, innerReaches⟩ :=
          divided.covers bounded entry (kept entry member) otherReaches
        exact ⟨inner, by simp [innerMember], innerReaches⟩
      · exact ⟨other, by simp [inAfter], otherReaches⟩

end Divides

/-! ## How cursors are divided -/

theorem divides_append {front back : List Tuple}
    (valid : Valid index { buffer := front ++ back, rest := none }) :
    Divides index limits index.entries { buffer := front ++ back, rest := none }
      [{ buffer := front, rest := none }, { buffer := back, rest := none }] := by
  obtain ⟨frontSorted, backSorted, across⟩ := List.pairwise_append.mp valid.sorted
  have frontStored := fun tuple member => valid.stored tuple (List.mem_append_left back member)
  have backStored := fun tuple member => valid.stored tuple (List.mem_append_right front member)
  have frontValid : Valid index { buffer := front, rest := none } :=
    ⟨frontStored, frontSorted, by simp, by simp⟩
  have backValid : Valid index { buffer := back, rest := none } :=
    ⟨backStored, backSorted, by simp, by simp⟩
  refine ⟨by simp [frontValid, backValid], List.pairwise_pair.mpr ?_, ?_, ?_⟩
  · simp only [reaches_array]
    rintro _ _ ⟨first, firstMember, rfl⟩ ⟨second, secondMember, rfl⟩
    exact across first firstMember second secondMember
  · simp only [List.mem_cons, List.not_mem_nil, or_false, forall_eq_or_imp, forall_eq,
      reaches_array, List.mem_append]
    exact ⟨fun key ⟨tuple, member, same⟩ => ⟨tuple, .inl member, same⟩,
      fun key ⟨tuple, member, same⟩ => ⟨tuple, .inr member, same⟩⟩
  · intro _ entry _ reaches
    obtain ⟨tuple, member, same⟩ := reaches_array.mp reaches
    rcases List.mem_append.mp member with member | member
    · exact ⟨_, List.mem_cons_self, reaches_array.mpr ⟨tuple, member, same⟩⟩
    · exact ⟨_, by simp, reaches_array.mpr ⟨tuple, member, same⟩⟩

/-- A range is divided at any of its keys. -/
theorem divides_at (hasLength : keys.HasLength index.pattern.keyColumns.length) {middle : Key}
    (length : middle.length = index.pattern.keyColumns.length)
    (contained : keys.contains middle = true) :
    Divides index limits index.entries { buffer := [], rest := some keys }
      [{ buffer := [], rest := some { keys with upper := .excluded middle } },
        { buffer := [], rest := some { keys with lower := .included middle } }] := by
  have lowLength := hasLength.withUpper length
  have highLength := hasLength.withLower length (.included middle) (.inl rfl)
  rw [KeyRange.contains_iff (length ▸ hasLength)] at contained
  -- In all three ranges membership is a condition on the number that a key spells.
  have lowIff : ∀ key : Key, key.length = index.pattern.keyColumns.length →
      ({ keys with upper := .excluded middle : KeyRange }.contains key = true ↔
        KeyRange.RankAbove (Key.rank key) keys.lower ∧ Key.rank key < Key.rank middle) :=
    fun key keyLength => KeyRange.contains_iff (keyLength ▸ lowLength)
  have highIff : ∀ key : Key, key.length = index.pattern.keyColumns.length →
      ({ keys with lower := .included middle : KeyRange }.contains key = true ↔
        Key.rank middle ≤ Key.rank key ∧ KeyRange.RankBelow (Key.rank key) keys.upper) :=
    fun key keyLength => KeyRange.contains_iff (keyLength ▸ highLength)
  have wholeIff : ∀ key : Key, key.length = index.pattern.keyColumns.length →
      (keys.contains key = true ↔ KeyRange.RankAbove (Key.rank key) keys.lower ∧
        KeyRange.RankBelow (Key.rank key) keys.upper) :=
    fun key keyLength => KeyRange.contains_iff (keyLength ▸ hasLength)
  refine ⟨by simp [valid_range lowLength, valid_range highLength], List.pairwise_pair.mpr ?_, ?_, ?_⟩
  · simp only [reaches_range]
    rintro key key' ⟨keyLength, inLow⟩ ⟨keyLength', inHigh⟩
    rw [lowIff key keyLength] at inLow
    rw [highIff key' keyLength'] at inHigh
    rw [Key.lt_iff_rank_lt (keyLength.trans keyLength'.symm)]
    exact Nat.lt_of_lt_of_le inLow.2 inHigh.1
  · simp only [List.mem_cons, List.not_mem_nil, or_false, forall_eq_or_imp, forall_eq, reaches_range]
    refine ⟨fun key ⟨keyLength, inLow⟩ => ⟨keyLength, ?_⟩, fun key ⟨keyLength, inHigh⟩ =>
      ⟨keyLength, ?_⟩⟩
    · rw [lowIff key keyLength] at inLow
      exact (wholeIff key keyLength).mpr ⟨inLow.1, contained.2.mono inLow.2.le⟩
    · rw [highIff key keyLength] at inHigh
      exact (wholeIff key keyLength).mpr ⟨contained.1.mono inHigh.1, inHigh.2⟩
  · intro _ entry _ reaches
    obtain ⟨keyLength, inKeys⟩ := reaches_range.mp reaches
    rw [wholeIff entry.key keyLength] at inKeys
    rcases Nat.lt_or_ge (Key.rank entry.key) (Key.rank middle) with below | above
    · exact ⟨_, List.mem_cons_self, reaches_range.mpr
        ⟨keyLength, (lowIff entry.key keyLength).mpr ⟨inKeys.1, below⟩⟩⟩
    · exact ⟨_, by simp, reaches_range.mpr
        ⟨keyLength, (highIff entry.key keyLength).mpr ⟨above, inKeys.2⟩⟩⟩

theorem divides_readChunk (indexValid : index.Valid arity) {read chunk : List Tuple}
    {rest : Option KeyRange} (valid : Valid index { buffer := read, rest := some keys })
    (chunkEq : index.readChunk keys = (chunk, rest)) :
    Divides index limits index.entries { buffer := read, rest := some keys }
      [{ buffer := read ++ chunk, rest }] := by
  have hasLength := valid.hasLength keys rfl
  have inChunk : ∀ tuple ∈ chunk, ∃ entry ∈ index.entries, keys.contains entry.key = true ∧
      entry.tuple = tuple := fun tuple member =>
    Index.mem_readChunk (congrArg Prod.fst chunkEq ▸ member)
  have chunkReaches : ∀ tuple ∈ chunk,
      (index.pattern.keyOf tuple).length = index.pattern.keyColumns.length ∧
        keys.contains (index.pattern.keyOf tuple) = true := by
    intro tuple member
    obtain ⟨entry, entryMember, contained, rfl⟩ := inChunk tuple member
    rw [← indexValid.keyed entry entryMember]
    exact ⟨indexValid.key_length entryMember, contained⟩
  have restInside : ∀ left ∈ rest, ∀ key : Key, key.length = index.pattern.keyColumns.length →
      left.contains key = true → keys.contains key = true := fun left member =>
    (Index.rest_of_readChunk indexValid hasLength ((congrArg Prod.snd chunkEq).trans member)).2.1
  have taken : chunk = ((index.entriesIn keys).take Index.chunkSize).map (·.tuple) :=
    (congrArg Prod.fst chunkEq).symm
  have listed : ((index.entriesIn keys).take Index.chunkSize).Sublist index.entries :=
    (List.take_sublist _ _).trans List.filter_sublist
  have chunkSorted := taken ▸ indexValid.sorted_tuples listed
  -- A chunk lies above what has been read before and below what is left to read.
  refine .single ⟨?_, ?_, ?_, ?_⟩ ?_ ?_
  · intro tuple member
    rcases List.mem_append.mp member with member | member
    · exact valid.stored tuple member
    · obtain ⟨entry, entryMember, -, rfl⟩ := inChunk tuple member
      exact List.mem_map_of_mem entryMember
  · refine List.pairwise_append.mpr ⟨valid.sorted, chunkSorted, fun tuple member other inNext => ?_⟩
    obtain ⟨length, contained⟩ := chunkReaches other inNext
    exact valid.ahead keys rfl tuple member _ length contained
  · intro left restEq tuple member key length contained
    rcases List.mem_append.mp member with member | member
    · exact valid.ahead keys rfl tuple member key length (restInside left restEq key length contained)
    · exact Index.below_rest_of_readChunk indexValid hasLength
        ((congrArg Prod.snd chunkEq).trans restEq) (congrArg Prod.fst chunkEq ▸ member) length contained
  · intro left restEq
    exact (Index.rest_of_readChunk indexValid hasLength ((congrArg Prod.snd chunkEq).trans restEq)).1
  · rintro key (⟨tuple, member, rfl⟩ | ⟨length, left, restEq, contained⟩)
    · rcases List.mem_append.mp member with member | member
      · exact .inl ⟨tuple, member, rfl⟩
      · obtain ⟨length, contained⟩ := chunkReaches tuple member
        exact .inr ⟨length, keys, rfl, contained⟩
    · exact .inr ⟨length, keys, rfl, restInside left restEq key length contained⟩
  · rintro - entry entryMember (⟨tuple, member, same⟩ | ⟨length, _, ⟨⟩, contained⟩)
    · exact .inl ⟨tuple, List.mem_append_left _ member, same⟩
    · have covered := Index.mem_readChunk_or_rest indexValid hasLength entryMember contained
      rw [chunkEq] at covered
      rcases covered with member | ⟨left, restEq, leftContains⟩
      · exact .inl ⟨entry.tuple, List.mem_append_right _ member, (indexValid.keyed _ entryMember).symm⟩
      · exact .inr ⟨length, left, restEq, leftContains⟩

/-- Nothing is lost when a cursor is given up at its end. -/
theorem divides_of_next_eq_none {read : List Tuple} {cursor : Cursor}
    (valid : Valid index { cursor with buffer := read ++ cursor.buffer })
    (ended : cursor.next index = none) :
    Divides index limits index.entries { cursor with buffer := read ++ cursor.buffer }
      [{ buffer := read, rest := none }] := by
  obtain ⟨empty, exhausted⟩ := buffer_eq_nil_of_next_eq_none ended
  rw [empty, List.append_nil] at valid ⊢
  refine .single ⟨valid.stored, valid.sorted, by simp, by simp⟩
    (fun key reaches => .inl (reaches_array.mp reaches)) ?_
  rintro - entry member (read | ⟨-, keys, restEq, contained⟩)
  · exact reaches_array.mpr read
  · have found := Index.mem_entriesIn.mpr ⟨member, contained⟩
    rw [exhausted keys restEq] at found
    simp at found

/-- A view of a range holds its entries, unless the limit wraps around. -/
theorem divides_view (indexValid : index.Valid arity)
    (hasLength : keys.HasLength index.pattern.keyColumns.length) :
    Divides index limits index.entries { buffer := [], rest := some keys }
      [(index.view limits keys).cursor] := by
  have nothing : Divides index limits [] { buffer := [], rest := some keys }
      [(View.array []).cursor] :=
    .single ⟨by simp [View.cursor], .nil, by simp [View.cursor], by simp [View.cursor]⟩
      (by simp [View.cursor, Reaches]) (by simp)
  by_cases bounded : limits.Bounded
  · rw [Index.view_eq bounded]
    split
    · refine .single ⟨?_, indexValid.sorted_tuples List.filter_sublist, by simp [View.cursor],
        by simp [View.cursor]⟩ (fun key reaches => ?_) fun _ entry member reaches => ?_
      · intro tuple member
        obtain ⟨entry, entryMember, rfl⟩ := List.mem_map.mp member
        exact List.mem_map_of_mem (Index.mem_entriesIn.mp entryMember).1
      · obtain ⟨tuple, member, rfl⟩ := reaches_array.mp reaches
        obtain ⟨entry, entryMember, rfl⟩ := List.mem_map.mp member
        obtain ⟨inIndex, contained⟩ := Index.mem_entriesIn.mp entryMember
        rw [← indexValid.keyed entry inIndex]
        exact reaches_range.mpr ⟨indexValid.key_length inIndex, contained⟩
      · have found := Index.mem_entriesIn.mpr ⟨member, (reaches_range.mp reaches).2⟩
        exact reaches_array.mpr
          ⟨entry.tuple, List.mem_map_of_mem found, (indexValid.keyed entry member).symm⟩
    · exact .refl (valid_range hasLength)
  · rw [Index.view_of_not_bounded bounded]
    exact ⟨nothing.valid, nothing.ordered, nothing.inside, fun isBounded => absurd isBounded bounded⟩

theorem divides_part (indexValid : index.Valid arity)
    (hasLength : keys.HasLength index.pattern.keyColumns.length) {count : Nat} :
    Divides index limits index.entries { buffer := [], rest := some keys }
      [(Split.part index limits keys count).cursor] := by
  unfold Split.part
  split
  · exact divides_view indexValid hasLength
  · exact .refl (valid_range hasLength)

/-- The next tuple moves from what may be read to what has been read. -/
theorem divides_next (indexValid : index.Valid arity) {read : List Tuple} {cursor rest : Cursor}
    {tuple : Tuple} (valid : Valid index { cursor with buffer := read ++ cursor.buffer })
    (nextEq : cursor.next index = some (tuple, rest)) :
    Divides index limits index.entries { cursor with buffer := read ++ cursor.buffer }
      [{ rest with buffer := read ++ [tuple] ++ rest.buffer }] := by
  obtain ⟨buffer, left⟩ := cursor
  cases buffer with
  | cons head buffer =>
      obtain ⟨rfl, rfl⟩ := Prod.mk.inj (Option.some.inj nextEq)
      simpa using Divides.refl valid
  | nil =>
      cases left with
      | none => simp [next] at nextEq
      | some keys =>
          rcases chunkEq : index.readChunk keys with ⟨_ | ⟨head, chunk⟩, left⟩
          · simp [next, chunkEq] at nextEq
          · simp only [next, chunkEq, Option.some.injEq, Prod.mk.injEq] at nextEq
            obtain ⟨rfl, rfl⟩ := nextEq
            simp only [List.append_nil] at valid ⊢
            simpa using divides_readChunk indexValid valid chunkEq

end Cursor

end Datalog
