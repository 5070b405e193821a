import Datalog.Proofs.Store.History

/-!
# Reading lookups to their ends

A view is read by asking its cursor for the next tuple until there is none.  Whether the view is a copy
or a range that is read chunk by chunk, this hands out the tuples that the index holds for the lookup,
in the order of their keys and each once.  The copy is made by counting to one more than the largest
size of a copy; at the largest machine word there is no such number, and every view is empty.
-/

namespace Datalog

namespace Cursor

variable {index : Index} {cursor : Cursor} {tuples : List Tuple}

/-- Asking a cursor for the next tuple until there is none hands out the given tuples. -/
inductive Reads (index : Index) : Cursor → List Tuple → Prop where
  | ended {cursor : Cursor} (none : cursor.next index = none) : Reads index cursor []
  | handed {cursor later : Cursor} {tuple : Tuple} {tuples : List Tuple}
      (next : cursor.next index = some (tuple, later)) (rest : Reads index later tuples) :
      Reads index cursor (tuple :: tuples)

theorem Reads.unique {others : List Tuple} (reads : cursor.Reads index tuples)
    (reads' : cursor.Reads index others) : tuples = others := by
  induction reads generalizing others with
  | ended none =>
      cases reads' with
      | ended => rfl
      | handed next _ => simp [none] at next
  | handed next _ ih =>
      cases reads' with
      | ended none => simp [next] at none
      | handed next' rest' =>
          obtain ⟨rfl, rfl⟩ := Prod.mk.inj (Option.some.inj (next.symm.trans next'))
          rw [ih rest']

/-- What has been read into the buffer is handed out first. -/
theorem Reads.prepend {rest : Option KeyRange}
    (reads : Reads index { buffer := [], rest } tuples) (buffer : List Tuple) :
    Reads index { buffer, rest } (buffer ++ tuples) := by
  induction buffer with
  | nil => exact reads
  | cons tuple buffer ih => exact .handed rfl ih

theorem reads_array (index : Index) (tuples : List Tuple) :
    Reads index { buffer := tuples, rest := none } tuples := by
  have nothingLeft : Reads index { buffer := [], rest := none } [] := .ended rfl
  simpa using nothingLeft.prepend tuples

/-- A range is read by handing out its next chunk and then the rest. -/
theorem Reads.of_readChunk {keys : KeyRange} {chunk : List Tuple} {rest : Option KeyRange}
    (chunkEq : index.readChunk keys = (chunk, rest)) (stops : chunk = [] → rest = none)
    (reads : Reads index { buffer := chunk, rest } tuples) :
    Reads index { buffer := [], rest := some keys } tuples := by
  cases chunk with
  | nil =>
      rw [stops rfl] at reads
      obtain rfl := reads.unique (reads_array index [])
      exact .ended (by simp [next, chunkEq])
  | cons tuple chunk =>
      have sameNext : next index { buffer := [], rest := some keys } =
          next index { buffer := tuple :: chunk, rest } := by
        simp [next, chunkEq]
      cases reads with
      | ended none => simp [next] at none
      | handed next rest => exact .handed (sameNext.trans next) rest

theorem buffer_eq_nil_of_next_eq_none (ended : cursor.next index = none) :
    cursor.buffer = [] ∧ ∀ keys ∈ cursor.rest, index.entriesIn keys = [] := by
  obtain ⟨buffer, rest⟩ := cursor
  cases buffer with
  | cons tuple buffer => simp [next] at ended
  | nil =>
      cases rest with
      | none => simp
      | some keys =>
          cases found : index.entriesIn keys with
          | nil => simp [found]
          | cons entry entries => simp [next, Index.readChunk, found, Index.chunkSize] at ended

end Cursor

namespace Index

variable {arity : Nat} {index : Index} {keys : KeyRange}

/-- The keys of a range that are left after its first entries are those above the last of these. -/
theorem Valid.entriesIn_above (valid : index.Valid arity)
    (hasLength : keys.HasLength index.pattern.keyColumns.length) {count : Nat} {last : Entry}
    (lastEq : ((index.entriesIn keys).take count).getLast? = some last) :
    index.entriesIn { keys with lower := .excluded last.key } = (index.entriesIn keys).drop count := by
  have lastMember := List.mem_of_mem_take (List.mem_of_getLast? lastEq)
  obtain ⟨lastInIndex, lastIn⟩ := mem_entriesIn.mp lastMember
  -- The last key lies in the range, so that raising the lower end to it only removes keys.
  have above : index.entriesIn { keys with lower := .excluded last.key } =
      (index.entriesIn keys).filter fun entry => last.key < entry.key := by
    rw [entriesIn, entriesIn, List.filter_filter]
    refine List.filter_congr fun entry member => ?_
    have raised := hasLength.withLower (valid.key_length lastInIndex) (.excluded last.key) (.inr rfl)
    have length := valid.key_length member
    rw [Bool.eq_iff_iff, Bool.and_eq_true, decide_eq_true_eq,
      KeyRange.contains_iff (length ▸ raised), KeyRange.contains_iff (length ▸ hasLength),
      Key.lt_iff_rank_lt ((valid.key_length lastInIndex).trans length.symm)]
    rw [KeyRange.contains_iff (valid.key_length lastInIndex ▸ hasLength)] at lastIn
    constructor
    · rintro ⟨less, below⟩
      exact ⟨less, lastIn.1.mono (Nat.le_of_lt less), below⟩
    · rintro ⟨less, -, below⟩
      exact ⟨less, below⟩
  have sorted : (index.entriesIn keys).Pairwise fun first second => first.key < second.key :=
    valid.sorted.filter _
  rw [← List.take_append_drop count (index.entriesIn keys)] at sorted
  obtain ⟨-, -, across⟩ := List.pairwise_append.mp sorted
  rw [above]
  conv_lhs => rw [← List.take_append_drop count (index.entriesIn keys)]
  have noneBefore : ((index.entriesIn keys).take count).filter (fun entry => last.key < entry.key) =
      [] := by
    refine List.filter_eq_nil_iff.mpr fun entry member => ?_
    have listed : ((index.entriesIn keys).take count).Sublist index.entries :=
      (List.take_sublist _ _).trans List.filter_sublist
    have notAbove := valid.rank_le_getLast listed member lastEq
    rw [decide_eq_true_eq, Key.lt_iff_rank_lt (by
      rw [valid.key_length lastInIndex, valid.key_length (listed.subset member)])]
    omega
  have allAfter : ((index.entriesIn keys).drop count).filter (fun entry => last.key < entry.key) =
      (index.entriesIn keys).drop count := by
    refine List.filter_eq_self.mpr fun entry member => ?_
    simpa using across last (List.mem_of_getLast? lastEq) entry member
  rw [List.filter_append, noneBefore, allAfter, List.nil_append]

theorem readChunk_of_short (short : (index.entriesIn keys).length < chunkSize) :
    index.readChunk keys = ((index.entriesIn keys).map (·.tuple), none) := by
  simp [readChunk, List.take_of_length_le short.le, short]

theorem exists_readChunk_of_full (full : chunkSize ≤ (index.entriesIn keys).length) :
    ∃ last, ((index.entriesIn keys).take chunkSize).getLast? = some last ∧
      index.readChunk keys = (((index.entriesIn keys).take chunkSize).map (·.tuple),
        some { keys with lower := .excluded last.key }) := by
  have length : ((index.entriesIn keys).take chunkSize).length = chunkSize := by
    rw [List.length_take, Nat.min_eq_left full]
  have nonempty : (index.entriesIn keys).take chunkSize ≠ [] := by
    intro empty
    rw [empty] at length
    exact absurd length (by decide)
  have lastEq := List.getLast?_eq_some_getLast nonempty
  refine ⟨_, lastEq, ?_⟩
  simp only [readChunk, length, Nat.lt_irrefl, if_false, lastEq, Option.map_some]

/-- Reading a range chunk by chunk hands out its entries in order. -/
theorem Valid.reads_range (valid : index.Valid arity)
    (hasLength : keys.HasLength index.pattern.keyColumns.length) :
    Cursor.Reads index { buffer := [], rest := some keys }
      ((index.entriesIn keys).map (·.tuple)) := by
  -- A chunk that is full leaves a range with fewer entries, and one that is not leaves none.
  induction size : (index.entriesIn keys).length using Nat.strong_induction_on generalizing keys with
  | _ bound ih =>
      rcases Nat.lt_or_ge (index.entriesIn keys).length chunkSize with short | full
      · exact .of_readChunk (readChunk_of_short short) (fun _ => rfl) (Cursor.reads_array index _)
      · obtain ⟨last, lastEq, chunkEq⟩ := exists_readChunk_of_full full
        have restEq := valid.entriesIn_above hasLength lastEq
        obtain ⟨raised, -, -⟩ := rest_of_readChunk valid hasLength (congrArg Prod.snd chunkEq)
        have fewer : ((index.entriesIn keys).drop chunkSize).length < bound := by
          rw [List.length_drop]
          simp only [chunkSize] at full ⊢
          omega
        have reads := ih _ fewer raised (congrArg List.length restEq)
        rw [restEq] at reads
        refine .of_readChunk chunkEq (fun none => ?_) ?_
        · rw [List.map_eq_nil_iff] at none
          simp [none] at lastEq
        · conv in (List.map _ (index.entriesIn keys)) =>
            rw [← List.take_append_drop chunkSize (index.entriesIn keys), List.map_append]
          exact reads.prepend _

end Index

theorem Cursor.exists_reads {arity : Nat} {index : Index} (valid : index.Valid arity) {cursor : Cursor}
    (hasLength : ∀ keys ∈ cursor.rest, keys.HasLength index.pattern.keyColumns.length) :
    ∃ tuples, cursor.Reads index tuples := by
  obtain ⟨buffer, rest⟩ := cursor
  cases rest with
  | none => exact ⟨_, reads_array index buffer⟩
  | some keys => exact ⟨_, (valid.reads_range (hasLength keys rfl)).prepend buffer⟩

/-! ## Lookups -/

namespace Pattern

variable {pattern : Pattern}

/-- The tuples of a relation with given values in the bound columns, in the order of their keys and
one for each key. -/
structure Selects (pattern : Pattern) (front : Key) (holds : Tuple → Prop) (found : List Tuple) :
    Prop where
  sorted : found.Pairwise fun first second => pattern.keyOf first < pattern.keyOf second
  sound : ∀ tuple ∈ found, holds tuple ∧ pattern.keepBound tuple = front
  covers : ∀ tuple, holds tuple → pattern.keepBound tuple = front →
    ∃ other ∈ found, pattern.keyOf other = pattern.keyOf tuple
  /-- Without ignored columns no tuple stands for another one. -/
  complete : pattern.isProjection = false →
    ∀ tuple, holds tuple → pattern.keepBound tuple = front → tuple ∈ found

theorem length_keepBound {α : Type} {row : List α} (length : row.length = pattern.length) :
    (pattern.keepBound row).length = pattern.boundCount := by
  induction pattern generalizing row with
  | nil => simp [keepBound, keep, boundCount]
  | cons binding pattern ih =>
      cases row with
      | nil => simp at length
      | cons column row =>
          have rest : (keepBound pattern row).length = boundCount pattern := ih (by simpa using length)
          cases binding <;> simpa [keepBound, keep, boundCount] using rest

theorem eq_allFree {arity : Nat} (length : pattern.length = arity)
    (reads : pattern.isAllFree = true) : pattern = .allFree arity :=
  List.eq_replicate_iff.mpr ⟨length, by simpa [isAllFree] using reads⟩

end Pattern

namespace FactStore

variable {store : FactStore} {symbol : RelationSymbol} {number : Nat} {index : Index} {front : Key}
  {history : RelationSymbol → List Tuple}

theorem Valid.fitsFront (valid : store.Valid) (indexEq : store.index? symbol number = some index)
    (length : front.length = index.pattern.boundCount) : FitsFront symbol index.pattern front :=
  fun _ tupleLength => length.trans
    (Pattern.length_keepBound (tupleLength.trans (valid.index_valid indexEq).arity_eq.symm)).symm

theorem Valid.selects (valid : store.Valid) (indexEq : store.index? symbol number = some index)
    (fits : FitsFront symbol index.pattern front) :
    index.pattern.Selects front (store.Holds symbol)
      ((index.entriesIn (index.rangeOf front)).map (·.tuple)) := by
  have indexValid := valid.index_valid indexEq
  have lengthOf : ∀ {tuple : Tuple}, store.Holds symbol tuple →
      tuple.length = index.pattern.length := fun holds =>
    (valid.length_of_holds holds).trans indexValid.arity_eq.symm
  have covers : ∀ tuple, store.Holds symbol tuple → index.pattern.keepBound tuple = front →
      ∃ other ∈ (index.entriesIn (index.rangeOf front)).map (·.tuple),
        index.pattern.keyOf other = index.pattern.keyOf tuple := by
    intro tuple holds bound
    obtain ⟨entry, found, keyEq⟩ := valid.exists_found indexEq fits holds bound
    have keyed := indexValid.keyed entry (Index.mem_entriesIn.mp found).1
    exact ⟨entry.tuple, List.mem_map_of_mem found, keyed.symm.trans keyEq⟩
  have sound : ∀ tuple ∈ (index.entriesIn (index.rangeOf front)).map (·.tuple),
      store.Holds symbol tuple ∧ index.pattern.keepBound tuple = front := by
    intro tuple found
    obtain ⟨entry, entryFound, rfl⟩ := List.mem_map.mp found
    obtain ⟨member, bound⟩ := (valid.mem_entriesIn_rangeOf indexEq fits).mp entryFound
    exact ⟨valid.holds_of_entry indexEq member, bound⟩
  refine ⟨indexValid.sorted_tuples List.filter_sublist, sound, covers, fun complete tuple holds bound => ?_⟩
  obtain ⟨other, found, sameKey⟩ := covers tuple holds bound
  rwa [← Pattern.keyOf_injective complete (lengthOf (sound other found).1) (lengthOf holds) sameKey]

end FactStore

/-! ## What a lookup hands out -/

/-- A view hands out the given tuples and knows their number. -/
structure View.HandsOut (index : Index) (view : View) (tuples : List Tuple) : Prop where
  reads : view.cursor.Reads index tuples
  length_eq : view.length = tuples.length
  isEmpty_iff : view.isEmpty = true ↔ tuples = []

theorem View.handsOut_array_iff {index : Index} {tuples others : List Tuple} :
    View.HandsOut index (.array tuples) others ↔ others = tuples := by
  constructor
  · intro handsOut
    exact handsOut.reads.unique (Cursor.reads_array index tuples)
  · rintro rfl
    exact ⟨Cursor.reads_array index _, rfl, by simp [isEmpty, length]⟩

/-- The number of entries to look for wraps around at the largest machine word. -/
theorem Index.view_of_not_bounded {index : Index} {limits : ViewLimits} {keys : KeyRange}
    (notBounded : ¬ limits.Bounded) : index.view limits keys = .array [] := by
  have wraps : (limits.maxArraySize + 1).toNat = 0 := by
    have small := limits.maxArraySize.toNat_lt_size
    have top : limits.maxArraySize.toNat + 1 = UInt64.size :=
      Nat.le_antisymm small (Nat.le_of_not_lt notBounded)
    rw [UInt64.toNat_add]
    exact top ▸ Nat.mod_self _
  simp [view, wraps]

/-- A view of a range hands out the entries of the range, unless its limit wraps around. -/
theorem Index.Valid.handsOut_view_iff {arity : Nat} {index : Index} (valid : index.Valid arity)
    {limits : ViewLimits} {keys : KeyRange}
    (hasLength : keys.HasLength index.pattern.keyColumns.length) :
    (index.view limits keys).HandsOut index ((index.entriesIn keys).map (·.tuple)) ↔
      limits.Bounded ∨ (index.entriesIn keys).map (·.tuple) = [] := by
  by_cases bounded : limits.Bounded
  · refine iff_of_true ?_ (.inl bounded)
    rw [view_eq bounded]
    split
    · exact View.handsOut_array_iff.mpr rfl
    · exact ⟨valid.reads_range hasLength, by simp [View.length], by
        simp [View.isEmpty, View.length]⟩
  · rw [view_of_not_bounded bounded, View.handsOut_array_iff, or_iff_right bounded]

namespace FactStore

variable {symbols : List RelationSymbol} {before after : List (RelationSymbol × Pattern)}
  {symbol : RelationSymbol} {pattern : Pattern} {config : Config} {updates : List Update}

/-- The answer to an accepted request is the number of its index in every store that is built later. -/
theorem provides_ofUpdates {number : Nat} {plan : StorePlan}
    (asked : ((StorePlan.ofSymbols symbols).requestAll before).request symbol pattern =
      .ok (number, plan)) (fits : ∀ update ∈ updates, update.Fits) :
    (ofUpdates symbols (before ++ (symbol, pattern) :: after) config updates).Provides symbol number
      pattern := by
  have startValid := (StorePlan.requestAll_spec (StorePlan.valid_ofSymbols symbols) before).1
  obtain ⟨planValid, -, -, requested⟩ := StorePlan.request_ok startValid asked
  have planEq : (StorePlan.ofSymbols symbols).requestAll (before ++ (symbol, pattern) :: after) =
      plan.requestAll after := by
    rw [StorePlan.requestAll_append, StorePlan.requestAll, asked]
  refine provides_applyAll (records_ofRequests symbols _ config).valid fits
    (StorePlan.provides_build ?_)
  rw [planEq]
  exact (StorePlan.requestAll_spec planValid after).2.1.requests _ _ _ requested

theorem Valid.selects_master {store : FactStore} (valid : store.Valid) (symbol : RelationSymbol) :
    (Pattern.allFree symbol.arity).Selects [] (store.Holds symbol) (store.masterOf symbol).tuples := by
  cases relationEq : store.relation? symbol with
  | none =>
      have nothing : ∀ tuple, ¬ store.Holds symbol tuple := by simp [Holds, relationEq]
      rw [tuples_masterOf_eq_nil relationEq]
      exact ⟨.nil, by simp, fun tuple holds => absurd holds (nothing tuple),
        fun _ tuple holds => absurd holds (nothing tuple)⟩
  | some relation =>
      have relationValid := valid symbol relation relationEq
      obtain ⟨index, atMaster, allFree⟩ := relationValid.master_allFree
      have indexEq : store.index? symbol relation.master = some index := by
        simp [index?, relationEq, atMaster]
      have indexValid := valid.index_valid indexEq
      have patternEq := Pattern.eq_allFree indexValid.arity_eq allFree
      have noneBound : ([] : Key).length = index.pattern.boundCount := by
        simp [patternEq, Pattern.boundCount, Pattern.allFree, List.count_replicate]
      have fits := valid.fitsFront indexEq noneBound
      have whole : index.entriesIn (index.rangeOf []) = index.entries :=
        List.filter_eq_self.mpr fun entry member =>
          (Index.contains_rangeOf indexValid member (Nat.zero_le _)).mpr (List.nil_prefix)
      have selects := valid.selects indexEq fits
      rwa [whole, patternEq, ← Index.tuples, ← Relation.masterIndex_eq atMaster,
        ← masterOf_eq relationEq] at selects

theorem Valid.exists_masterOf_valid {store : FactStore} (valid : store.Valid)
    (symbol : RelationSymbol) :
    ∃ arity, (store.masterOf symbol).Valid arity := by
  cases relationEq : store.relation? symbol with
  | none =>
      simp only [masterOf, relationEq]
      exact ⟨0, Index.valid_empty rfl⟩
  | some relation =>
      rw [masterOf_eq relationEq]
      exact ⟨_, (valid symbol relation relationEq).masterIndex_valid⟩

theorem Valid.handsOut_all_iff {store : FactStore} (valid : store.Valid) (symbol : RelationSymbol) :
    (store.all symbol).HandsOut (store.masterOf symbol) (store.masterOf symbol).tuples ↔
      store.limits.Bounded ∨ (store.masterOf symbol).tuples = [] := by
  obtain ⟨arity, masterValid⟩ := valid.exists_masterOf_valid symbol
  have handsOutIff := @masterValid.handsOut_view_iff _ _ store.limits _ (KeyRange.hasLength_unbounded _)
  rwa [Index.entriesIn_unbounded] at handsOutIff

theorem Valid.handsOut_get_iff {store : FactStore} (valid : store.Valid) {number : Nat} {index : Index}
    {front : Key} (indexEq : store.index? symbol number = some index)
    (fits : FitsFront symbol index.pattern front) :
    (store.get symbol number front).HandsOut index
        ((index.entriesIn (index.rangeOf front)).map (·.tuple)) ↔
      store.limits.Bounded ∨ (index.entriesIn (index.rangeOf front)).map (·.tuple) = [] := by
  have indexValid := valid.index_valid indexEq
  have getEq : store.get symbol number front = index.view store.limits (index.rangeOf front) := by
    simp only [get, indexEq, Index.lookup]
  rw [getEq]
  exact indexValid.handsOut_view_iff (KeyRange.hasLength_ofFront (fits.le_keyColumns indexValid))

/-- A lookup under the number that was given for a pattern hands out the tuples of the relation with the
given values in the bound columns, sorted and one for each key, whatever the limits of views are; only
at the largest machine word, where the limit wraps around, it hands out nothing.  The same holds for all
tuples of any relation. -/
theorem get_handsOut_iff {number : Nat} {plan : StorePlan}
    (asked : ((StorePlan.ofSymbols symbols).requestAll before).request symbol pattern =
      .ok (number, plan))
    (after : List (RelationSymbol × Pattern)) (fits : ∀ update ∈ updates, update.Fits) {front : Key}
    (length : front.length = pattern.boundCount) :
    (∃ found, ∀ config store,
      ofUpdates symbols (before ++ (symbol, pattern) :: after) config updates = store →
        pattern.Selects front (store.Holds symbol) found ∧
          ∃ index, store.index? symbol number = some index ∧ index.pattern = pattern ∧
            ((store.get symbol number front).HandsOut index found ↔
              config.maxArraySize.toNat + 1 < UInt64.size ∨ found = [])) ∧
      ∀ other, ∃ found, ∀ config store,
        ofUpdates symbols (before ++ (symbol, pattern) :: after) config updates = store →
          (Pattern.allFree other.arity).Selects [] (store.Holds other) found ∧
            ((store.all other).HandsOut (store.masterOf other) found ↔
              config.maxArraySize.toNat + 1 < UInt64.size ∨ found = []) := by
  have records := fun config =>
    @records_ofUpdates symbols (before ++ (symbol, pattern) :: after) config updates fits
  -- Limits do not matter for the content, so that one store tells the tuples for all settings.
  have sameContent := fun config =>
    ofUpdates_eq symbols (before ++ (symbol, pattern) :: after) config updates
  refine ⟨?_, fun other => ?_⟩
  · obtain ⟨index, indexEq, patternEq⟩ :=
      @provides_ofUpdates symbols before after symbol pattern {} updates _ _ asked fits
    refine ⟨(index.entriesIn (index.rangeOf front)).map (·.tuple), ?_⟩
    rintro config store rfl
    have valid := (records config).valid
    have indexEq' : (ofUpdates symbols (before ++ (symbol, pattern) :: after) config
        updates).index? symbol number = some index := by
      rw [sameContent]
      exact indexEq
    have frontFits := valid.fitsFront indexEq' (patternEq ▸ length)
    have selects := valid.selects indexEq' frontFits
    have handsOutIff := valid.handsOut_get_iff indexEq' frontFits
    refine ⟨patternEq ▸ selects, index, indexEq', patternEq, ?_⟩
    rw [sameContent] at handsOutIff ⊢
    exact handsOutIff
  · refine ⟨((ofUpdates symbols (before ++ (symbol, pattern) :: after) {} updates).masterOf
      other).tuples, ?_⟩
    rintro config store rfl
    have selects := (records config).valid.selects_master other
    have handsOutIff := (records config).valid.handsOut_all_iff other
    rw [sameContent] at selects handsOutIff ⊢
    exact ⟨selects, handsOutIff⟩

/-- Three edges, with an index that is looked up by their sources. -/
def edges (config : Config) : FactStore :=
  ofUpdates [⟨"edge", 2⟩] [(⟨"edge", 2⟩, [.bound, .free])] config
    [.addAll ⟨"edge", 2⟩ [[⟨1⟩, ⟨3⟩], [⟨1⟩, ⟨2⟩], [⟨2⟩, ⟨2⟩]]]

theorem get_handsOut_iff_sample :
    ∃ found index,
      Pattern.Selects [.bound, .free] [⟨1⟩] ((edges {}).Holds ⟨"edge", 2⟩) found ∧
        ((edges {}).get ⟨"edge", 2⟩ 0 [⟨1⟩]).HandsOut index found := by
  have asked : ((StorePlan.ofSymbols [⟨"edge", 2⟩]).requestAll []).request ⟨"edge", 2⟩
      [.bound, .free] = .ok (0, { patterns := [(⟨"edge", 2⟩, [[.bound, .free]])] }) := by
    decide
  have fits : ∀ update ∈ [Update.addAll ⟨"edge", 2⟩ [[⟨1⟩, ⟨3⟩], [⟨1⟩, ⟨2⟩], [⟨2⟩, ⟨2⟩]]],
      update.Fits := by
    simp [Update.Fits]
  obtain ⟨⟨found, answered⟩, -⟩ := @get_handsOut_iff _ _ _ _ _ _ _ asked [] fits [⟨1⟩] rfl
  obtain ⟨selects, index, -, -, handsOutIff⟩ := answered {} (edges {}) rfl
  exact ⟨found, index, selects, handsOutIff.mpr (.inl (by decide))⟩

/-- At the largest limit on copies the same lookup misses the edges. -/
theorem get_handsOut_largest :
    ¬ ∃ found index,
      Pattern.Selects [.bound, .free] [⟨1⟩]
          ((edges { maxArraySize := 0xFFFFFFFFFFFFFFFF }).Holds ⟨"edge", 2⟩) found ∧
        ((edges { maxArraySize := 0xFFFFFFFFFFFFFFFF }).get ⟨"edge", 2⟩ 0 [⟨1⟩]).HandsOut index
          found := by
  rintro ⟨found, index, selects, handsOut⟩
  have empty : (edges { maxArraySize := 0xFFFFFFFFFFFFFFFF }).get ⟨"edge", 2⟩ 0 [⟨1⟩] =
      .array [] := by
    decide +kernel
  have held : (edges { maxArraySize := 0xFFFFFFFFFFFFFFFF }).Holds ⟨"edge", 2⟩ [⟨1⟩, ⟨2⟩] :=
    mem_masterOf_tuples.mp (by decide +kernel)
  obtain ⟨other, member, -⟩ := selects.covers _ held rfl
  rw [empty, View.handsOut_array_iff] at handsOut
  simp [handsOut] at member

end FactStore

end Datalog
