import Datalog.Proofs.Store.Extent
import Datalog.Proofs.Store.Reading

/-!
# Splitting views of an index at rest

While its index does not change, a view that only remembers a range knows exactly how many entries the
range has.  A middle is counted when it is found, so that both parts know it of their own ranges, and
they hand out the tuples of the view one after the other.  Neither part is empty; hence a view cannot
be split for ever.
-/

namespace Datalog

variable {arity : Nat} {index : Index} {limits : ViewLimits} {keys : KeyRange}

/-! ## Ranges at a middle -/

/-- In a list sorted by keys, those below a key come before the others. -/
theorem filter_append_filter_of_sorted {entries : List Entry}
    (sorted : entries.Pairwise fun first second => first.key < second.key) (middle : Key) :
    entries.filter (fun entry => decide (entry.key < middle)) ++
      entries.filter (fun entry => !decide (entry.key < middle)) = entries := by
  induction entries with
  | nil => rfl
  | cons head entries ih =>
      obtain ⟨headBelow, tailSorted⟩ := List.pairwise_cons.mp sorted
      by_cases below : head.key < middle
      · simp [below, ih tailSorted]
      · have noneBelow : ∀ entry ∈ entries, ¬ entry.key < middle := fun entry member less =>
          below (List.lt_trans (headBelow entry member) less)
        have nothing : entries.filter (fun entry => decide (entry.key < middle)) = [] := by
          simpa using noneBelow
        have everything : entries.filter (fun entry => !decide (entry.key < middle)) = entries := by
          simpa using noneBelow
        simp [below, nothing, everything]

namespace KeyRange

@[simp] theorem isBelow_excluded (key bound : Key) :
    isBelow key (.excluded bound) = decide (key < bound) :=
  rfl

@[simp] theorem isAbove_included (key bound : Key) :
    isAbove key (.included bound) = !decide (key < bound) :=
  rfl

/-- Below one of its keys, a range holds what it holds of the keys below. -/
theorem contains_below {middle : Key} (below : isBelow middle keys.upper = true) (key : Key) :
    { keys with upper := .excluded middle : KeyRange }.contains key =
      (decide (key < middle) && keys.contains key) := by
  by_cases less : key < middle
  · simp [contains, isBelow_of_le below (List.le_of_lt less), less]
  · simp [contains, less]

theorem contains_from {middle : Key} (above : isAbove middle keys.lower = true) (key : Key) :
    { keys with lower := .included middle : KeyRange }.contains key =
      (!decide (key < middle) && keys.contains key) := by
  by_cases less : key < middle
  · simp [contains, less]
  · simp [contains, isAbove_of_le above (List.not_lt.mp less), less]

end KeyRange

/-- A key of a range divides its entries. -/
theorem Index.Valid.entriesIn_append (valid : index.Valid arity) {middle : Key}
    (contained : keys.contains middle = true) :
    index.entriesIn { keys with upper := .excluded middle } ++
      index.entriesIn { keys with lower := .included middle } = index.entriesIn keys := by
  obtain ⟨middleAbove, middleBelow⟩ := Bool.and_eq_true_iff.mp contained
  have lower : index.entriesIn { keys with upper := .excluded middle } =
      (index.entriesIn keys).filter fun entry => decide (entry.key < middle) := by
    rw [entriesIn, entriesIn, List.filter_filter]
    exact List.filter_congr fun entry _ => KeyRange.contains_below middleBelow entry.key
  have upper : index.entriesIn { keys with lower := .included middle } =
      (index.entriesIn keys).filter fun entry => !decide (entry.key < middle) := by
    rw [entriesIn, entriesIn, List.filter_filter]
    exact List.filter_congr fun entry _ => KeyRange.contains_from middleAbove entry.key
  have sorted : (index.entriesIn keys).Pairwise fun first second => first.key < second.key :=
    valid.sorted.filter _
  rw [lower, upper, filter_append_filter_of_sorted sorted]

/-! ## Counts that are exact -/

namespace View

/-- A view of a range knows how many entries an index has there. -/
def Exact (index : Index) : View → Prop
  | .array _ => True
  | .range keys count =>
      keys.HasLength index.pattern.keyColumns.length ∧ count = (index.entriesIn keys).length

theorem Exact.handsOut (valid : index.Valid arity) {view : View} (exact : view.Exact index) :
    view.HandsOut index (view.tuples index) := by
  cases view with
  | array tuples => exact handsOut_array_iff.mpr rfl
  | range keys count =>
      obtain ⟨hasLength, rfl⟩ := exact
      exact ⟨valid.reads_range hasLength, by simp [length, tuples], by simp [isEmpty, length, tuples]⟩

/-- A view holds the tuples of some range, and knows their number. -/
structure Shows (index : Index) (view : View) (keys : KeyRange) : Prop where
  exact : view.Exact index
  tuples_eq : view.tuples index = (index.entriesIn keys).map (·.tuple)

theorem shows_view (bounded : limits.Bounded)
    (hasLength : keys.HasLength index.pattern.keyColumns.length) :
    (index.view limits keys).Shows index keys := by
  rw [Index.view_eq bounded]
  split
  · exact ⟨trivial, rfl⟩
  · exact ⟨⟨hasLength, rfl⟩, rfl⟩

theorem shows_part (bounded : limits.Bounded)
    (hasLength : keys.HasLength index.pattern.keyColumns.length) {count : Nat}
    (counted : count = (index.entriesIn keys).length) :
    (Split.part index limits keys count).Shows index keys := by
  unfold Split.part
  split
  · exact shows_view bounded hasLength
  · exact ⟨⟨hasLength, counted⟩, rfl⟩

/-- The parts of a view hold its tuples, some in either part, and know their numbers. -/
theorem Exact.split (valid : index.Valid arity) (bounded : limits.Bounded)
    {view left right : View} (exact : view.Exact index) {draws : Draws}
    (splitEq : (view.split index limits draws).1 = some (left, right)) :
    (left.Exact index ∧ right.Exact index) ∧
      (left.tuples index ≠ [] ∧ right.tuples index ≠ []) ∧
        left.tuples index ++ right.tuples index = view.tuples index := by
  cases view with
  | array tuples =>
      simp only [View.split] at splitEq
      split at splitEq
      · cases splitEq
      · cases splitEq
        refine ⟨⟨trivial, trivial⟩, ⟨?_, ?_⟩, List.take_append_drop _ _⟩
        · rw [View.tuples, ← List.length_pos_iff, List.length_take]
          omega
        · rw [View.tuples, ← List.length_pos_iff, List.length_drop]
          omega
  | range keys count =>
      obtain ⟨hasLength, counted⟩ := exact
      obtain ⟨first, firstMember, last, lastMember, middle, between, counts, rfl, rfl⟩ :=
        exists_middle_of_split valid splitEq
      obtain ⟨firstInIndex, firstIn⟩ := Index.mem_entriesIn.mp firstMember
      obtain ⟨lastInIndex, lastIn⟩ := Index.mem_entriesIn.mp lastMember
      obtain ⟨middleLength, contained⟩ := between.inside hasLength (valid.key_length firstInIndex)
        (valid.key_length lastInIndex) firstIn lastIn
      have divided := valid.entriesIn_append contained
      have lengths := congrArg List.length divided
      rw [List.length_append, ← counts.below_eq, ← counted] at lengths
      have lower := shows_part bounded (hasLength.withUpper middleLength) counts.below_eq
      have upper : (Split.part index limits { keys with lower := .included middle.key }
          (count - middle.below)).Shows index { keys with lower := .included middle.key } :=
        shows_part bounded (hasLength.withLower middleLength _ (.inl rfl)) (by omega)
      have pos := counts.pos
      have lt := counts.lt
      refine ⟨⟨lower.exact, upper.exact⟩, ⟨?_, ?_⟩, ?_⟩
      · rw [lower.tuples_eq, ← List.length_pos_iff, List.length_map, ← counts.below_eq]
        exact pos
      · rw [upper.tuples_eq, ← List.length_pos_iff, List.length_map]
        omega
      · rw [lower.tuples_eq, upper.tuples_eq, ← List.map_append, divided]
        rfl

/-! ## Splitting again and again -/

/-- A view is one of the two that another one splits into, for some random draws. -/
def IsPart (index : Index) (limits : ViewLimits) (part view : View) : Prop :=
  ∃ draws left right, (view.split index limits draws).1 = some (left, right) ∧
    (part = left ∨ part = right)

theorem Exact.isPart (valid : index.Valid arity) (bounded : limits.Bounded) {part view : View}
    (exact : view.Exact index) (isPart : IsPart index limits part view) : part.Exact index := by
  obtain ⟨draws, left, right, splitEq, rfl | rfl⟩ := isPart
  · exact (exact.split valid bounded splitEq).1.1
  · exact (exact.split valid bounded splitEq).1.2

/-- What splitting makes of a view while the index does not change. -/
structure Splits (index : Index) (limits : ViewLimits) (view : View) : Prop where
  /-- A view of fewer than two tuples does not split. -/
  small : ∃ tuples, view.HandsOut index tuples ∧
    (tuples.length < 2 → ∀ draws, (view.split index limits draws).1 = none)
  /-- A copy of at least two tuples splits in its middle. -/
  halves : ∀ tuples, view = .array tuples → 2 ≤ tuples.length → ∀ draws,
    (view.split index limits draws).1 =
      some (.array (tuples.take (tuples.length / 2)), .array (tuples.drop (tuples.length / 2)))
  /-- The parts hand out the tuples of the view, and neither is empty. -/
  parts : ∀ draws left right, (view.split index limits draws).1 = some (left, right) →
    ∃ front back, front ≠ [] ∧ back ≠ [] ∧ view.HandsOut index (front ++ back) ∧
      left.HandsOut index front ∧ right.HandsOut index back ∧
        left.length + right.length = view.length
  /-- Its parts cannot be split for ever. -/
  ends : Acc (IsPart index limits) view

theorem Exact.acc (valid : index.Valid arity) (bounded : limits.Bounded) {view : View}
    (exact : view.Exact index) : Acc (IsPart index limits) view := by
  -- Both parts hold fewer tuples than the view, since neither is empty.
  induction size : (view.tuples index).length using Nat.strong_induction_on generalizing view with
  | _ bound ih =>
      refine .intro view fun part isPart => ih _ ?_ (exact.isPart valid bounded isPart) rfl
      obtain ⟨draws, left, right, splitEq, here⟩ := isPart
      obtain ⟨-, ⟨leftNonempty, rightNonempty⟩, together⟩ := exact.split valid bounded splitEq
      have leftPos := List.length_pos_iff.mpr leftNonempty
      have rightPos := List.length_pos_iff.mpr rightNonempty
      have lengths := congrArg List.length together
      rw [List.length_append, size] at lengths
      rcases here with rfl | rfl <;> omega

theorem Exact.splits (valid : index.Valid arity) (bounded : limits.Bounded) {view : View}
    (exact : view.Exact index) : view.Splits index limits where
  small := by
    refine ⟨_, exact.handsOut valid, fun few draws => ?_⟩
    cases view with
    | array tuples =>
        replace few : tuples.length < 2 := few
        simp [View.split, few]
    | range keys count =>
        obtain ⟨-, rfl⟩ := exact
        replace few : (index.entriesIn keys).length < 2 := by simpa [View.tuples] using few
        simp only [View.split]
        split
        · simp [few]
        · rfl
  halves := by
    rintro tuples rfl several draws
    simp [View.split, Nat.not_lt.mpr several]
  parts draws left right splitEq := by
    obtain ⟨⟨leftExact, rightExact⟩, ⟨leftNonempty, rightNonempty⟩, together⟩ :=
      exact.split valid bounded splitEq
    have whole := exact.handsOut valid
    have lower := leftExact.handsOut valid
    have upper := rightExact.handsOut valid
    rw [← together] at whole
    refine ⟨_, _, leftNonempty, rightNonempty, whole, lower, upper, ?_⟩
    rw [lower.length_eq, upper.length_eq, whole.length_eq, List.length_append]
  ends := exact.acc valid bounded

end View

namespace FactStore

variable {store : FactStore}

/-- The views that a store can give of one of its indices: those that its lookups return, and those
that they split into. -/
inductive Offers (store : FactStore) (index : Index) : View → Prop where
  | get {symbol : RelationSymbol} {number : Nat} {front : Key}
      (indexEq : store.index? symbol number = some index)
      (length : front.length = index.pattern.boundCount) :
      Offers store index (store.get symbol number front)
  | all {symbol : RelationSymbol} (masterEq : store.masterOf symbol = index) :
      Offers store index (store.all symbol)
  | part {part view : View} (offers : Offers store index view)
      (isPart : View.IsPart index store.limits part view) : Offers store index part

theorem Offers.exact (valid : store.Valid) (bounded : store.limits.Bounded) {index : Index}
    {view : View} (offers : store.Offers index view) :
    (∃ arity, index.Valid arity) ∧ view.Exact index := by
  induction offers with
  | @get symbol number front indexEq length =>
      have indexValid := valid.index_valid indexEq
      have fits := (valid.fitsFront indexEq length).le_keyColumns indexValid
      have getEq : store.get symbol number front = index.view store.limits (index.rangeOf front) := by
        simp only [FactStore.get, indexEq, Index.lookup]
      rw [getEq]
      exact ⟨⟨_, indexValid⟩, (View.shows_view bounded (KeyRange.hasLength_ofFront fits)).exact⟩
  | @all symbol masterEq =>
      subst masterEq
      exact ⟨valid.exists_masterOf_valid symbol,
        (View.shows_view bounded (KeyRange.hasLength_unbounded _)).exact⟩
  | part _ isPart ih =>
      obtain ⟨⟨arity, indexValid⟩, exact⟩ := ih
      exact ⟨⟨arity, indexValid⟩, exact.isPart indexValid bounded isPart⟩

/-- Whatever has been done to a store, and whatever numbers are drawn, every view of an index that
does not change splits into nonempty parts that hand out its tuples one after the other, until its parts
do not split any more. -/
theorem offered_splits (symbols : List RelationSymbol)
    (requests : List (RelationSymbol × Pattern)) (config : Config)
    (bounded : config.maxArraySize.toNat + 1 < UInt64.size) (updates : List Update)
    (fits : ∀ update ∈ updates, update.Fits) (index : Index) (view : View)
    (offers : (ofUpdates symbols requests config updates).Offers index view) :
    view.Splits index (ofUpdates symbols requests config updates).limits := by
  have valid := (@records_ofUpdates symbols requests config updates fits).valid
  have limitsBounded : (ofUpdates symbols requests config updates).limits.Bounded := by
    rw [ofUpdates_eq]
    exact bounded
  obtain ⟨⟨arity, indexValid⟩, exact⟩ := offers.exact valid limitsBounded
  exact exact.splits indexValid limitsBounded

/-- The index of the edges by their sources. -/
def edgeIndex : Index where
  pattern := [.bound, .free]
  entries := [⟨[⟨1⟩, ⟨2⟩], [⟨1⟩, ⟨2⟩]⟩, ⟨[⟨1⟩, ⟨3⟩], [⟨1⟩, ⟨3⟩]⟩, ⟨[⟨2⟩, ⟨2⟩], [⟨2⟩, ⟨2⟩]⟩]

/-- Without copies, the edges from one source are a range, which splits in two. -/
theorem offered_splits_sample :
    ∃ lower upper : KeyRange,
      (((edges { maxArraySize := 0 }).get ⟨"edge", 2⟩ 0 [⟨1⟩]).split edgeIndex
          (edges { maxArraySize := 0 }).limits { number := id }).1 =
        some (.range lower 1, .range upper 1) ∧
        View.Splits edgeIndex (edges { maxArraySize := 0 }).limits
            ((edges { maxArraySize := 0 }).get ⟨"edge", 2⟩ 0 [⟨1⟩]) ∧
          View.Splits edgeIndex (edges { maxArraySize := 0 }).limits (.range upper 1) := by
  have splitEq : (((edges { maxArraySize := 0 }).get ⟨"edge", 2⟩ 0 [⟨1⟩]).split edgeIndex
      (edges { maxArraySize := 0 }).limits { number := id }).1 =
        some (.range { lower := .included [⟨1⟩, .least], upper := .excluded [⟨1⟩, ⟨3⟩] } 1,
          .range { lower := .included [⟨1⟩, ⟨3⟩], upper := .included [⟨1⟩, .greatest] } 1) := by
    decide +kernel
  have indexEq : (edges { maxArraySize := 0 }).index? ⟨"edge", 2⟩ 0 = some edgeIndex := by
    decide +kernel
  have whole : (edges { maxArraySize := 0 }).Offers edgeIndex
      ((edges { maxArraySize := 0 }).get ⟨"edge", 2⟩ 0 [⟨1⟩]) := .get indexEq rfl
  have half := whole.part ⟨_, _, _, splitEq, .inr rfl⟩
  have fits : ∀ update ∈ [Update.addAll ⟨"edge", 2⟩ [[⟨1⟩, ⟨3⟩], [⟨1⟩, ⟨2⟩], [⟨2⟩, ⟨2⟩]]],
      update.Fits := by
    simp [Update.Fits]
  exact ⟨_, _, splitEq, offered_splits _ _ _ (by decide) _ fits _ _ whole,
    offered_splits _ _ _ (by decide) _ fits _ _ half⟩

end FactStore

end Datalog
