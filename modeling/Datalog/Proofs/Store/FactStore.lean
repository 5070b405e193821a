import Datalog.Proofs.Store.Relation

/-!
# Valid fact stores

A valid store consists of valid relations, and what it holds of a relation is what the master of the
relation holds.  Lookups return the tuples with given values in the bound columns, one for each key of
the index.  A store that grows keeps its indices and everything it holds.
-/

namespace Datalog

namespace FactStore

/-- A store holds a tuple of a relation. -/
def Holds (store : FactStore) (symbol : RelationSymbol) (tuple : Tuple) : Prop :=
  ∃ relation, store.relation? symbol = some relation ∧ tuple ∈ relation.masterIndex.tuples

def Valid (store : FactStore) : Prop :=
  ∀ symbol relation, store.relation? symbol = some relation → relation.Valid symbol.arity

/-- A relation of a store has an index with a given number and pattern. -/
def Provides (store : FactStore) (symbol : RelationSymbol) (number : Nat) (pattern : Pattern) :
    Prop :=
  ∃ index, store.index? symbol number = some index ∧ index.pattern = pattern

/-- A store has a relation, with or without tuples. -/
def Registers (store : FactStore) (symbol : RelationSymbol) : Prop :=
  (store.relation? symbol).isSome = true

/-- A store keeps its indices with their entries. -/
structure Grows (later earlier : FactStore) : Prop where
  limits_eq : later.limits = earlier.limits
  relations : ∀ symbol, Option.Rel Relation.Grows (later.relation? symbol) (earlier.relation? symbol)
  holds : ∀ symbol tuple, earlier.Holds symbol tuple → later.Holds symbol tuple

variable {store later : FactStore} {symbol : RelationSymbol} {tuple : Tuple}

theorem Grows.refl (store : FactStore) : store.Grows store := by
  refine ⟨rfl, fun symbol => ?_, fun _ _ holds => holds⟩
  cases store.relation? symbol with
  | none => exact .none
  | some relation => exact .some (.refl relation)

theorem Grows.trans {first second third : FactStore} (right : third.Grows second)
    (left : second.Grows first) : third.Grows first := by
  refine ⟨right.limits_eq.trans left.limits_eq, fun symbol => ?_, fun symbol tuple holds =>
    right.holds symbol tuple (left.holds symbol tuple holds)⟩
  have atRight := right.relations symbol
  have atLeft := left.relations symbol
  generalize third.relation? symbol = relation at atRight ⊢
  generalize second.relation? symbol = relation' at atRight atLeft
  generalize first.relation? symbol = relation'' at atLeft ⊢
  cases atRight with
  | none =>
      cases atLeft
      exact .none
  | some grows =>
      cases atLeft with
      | some grows' =>
          refine .some fun number => ?_
          have atRight := grows number
          have atLeft := grows' number
          revert atRight atLeft
          rename_i last middle first
          generalize last.indices[number]? = index
          generalize middle.indices[number]? = index'
          generalize first.indices[number]? = index''
          rintro atRight atLeft
          cases atRight with
          | none =>
              cases atLeft
              exact .none
          | some grows =>
              cases atLeft with
              | some grows' => exact .some (grows.trans grows')

theorem Grows.registers_iff (grown : later.Grows store) :
    later.Registers symbol ↔ store.Registers symbol := by
  have := grown.relations symbol
  unfold Registers
  generalize later.relation? symbol = relation at this ⊢
  generalize store.relation? symbol = relation' at this ⊢
  cases this <;> simp

theorem Grows.index?_rel (grown : later.Grows store) (symbol : RelationSymbol) (number : Nat) :
    Option.Rel Index.Grows (later.index? symbol number) (store.index? symbol number) := by
  have atSymbol := grown.relations symbol
  unfold FactStore.index?
  generalize later.relation? symbol = relation at atSymbol ⊢
  generalize store.relation? symbol = relation' at atSymbol ⊢
  cases atSymbol with
  | none => exact .none
  | some grows => exact grows number

theorem Grows.index? (grown : later.Grows store) {number : Nat} {index : Index}
    (indexEq : store.index? symbol number = some index) :
    ∃ index', later.index? symbol number = some index' ∧ index'.Grows index := by
  have related := grown.index?_rel symbol number
  rw [indexEq] at related
  generalize later.index? symbol number = found at related ⊢
  cases related with
  | some grows => exact ⟨_, rfl, grows⟩

theorem Grows.provides_iff (grown : later.Grows store) {number : Nat} {pattern : Pattern} :
    later.Provides symbol number pattern ↔ store.Provides symbol number pattern := by
  have related := grown.index?_rel symbol number
  unfold Provides
  generalize later.index? symbol number = index at related ⊢
  generalize store.index? symbol number = index' at related ⊢
  cases related with
  | none => simp
  | some grows => simp [grows.pattern_eq]

theorem Grows.provides (grown : later.Grows store) {number : Nat} {pattern : Pattern}
    (provides : store.Provides symbol number pattern) : later.Provides symbol number pattern :=
  grown.provides_iff.mpr provides

/-! ## Reading -/

theorem masterOf_eq {relation : Relation} (relationEq : store.relation? symbol = some relation) :
    store.masterOf symbol = relation.masterIndex := by
  simp [masterOf, relationEq]

theorem tuples_masterOf_eq_nil (missing : store.relation? symbol = none) :
    (store.masterOf symbol).tuples = [] := by
  simp only [masterOf, missing]
  rfl

theorem mem_masterOf_tuples : tuple ∈ (store.masterOf symbol).tuples ↔ store.Holds symbol tuple := by
  unfold Holds
  cases relationEq : store.relation? symbol with
  | none => simp [tuples_masterOf_eq_nil relationEq]
  | some relation => simp [masterOf_eq relationEq]

theorem tuplesOf_eq (bounded : store.limits.Bounded) :
    store.tuplesOf symbol = (store.masterOf symbol).tuples := by
  simp only [tuplesOf, all, Index.all, Index.view_eq bounded]
  split <;> simp [View.tuples, Index.entriesIn_unbounded, Index.tuples]

theorem mem_tuplesOf (bounded : store.limits.Bounded) :
    tuple ∈ store.tuplesOf symbol ↔ store.Holds symbol tuple := by
  rw [tuplesOf_eq bounded, mem_masterOf_tuples]

theorem Valid.length_of_holds (valid : store.Valid) (holds : store.Holds symbol tuple) :
    tuple.length = symbol.arity := by
  obtain ⟨relation, relationEq, member⟩ := holds
  obtain ⟨entry, entryMember, rfl⟩ := List.mem_map.mp member
  exact (valid symbol relation relationEq).masterIndex_valid.tuple_length entry entryMember

theorem Valid.nodup_tuples_masterOf (valid : store.Valid) (symbol : RelationSymbol) :
    (store.masterOf symbol).tuples.Nodup := by
  cases relationEq : store.relation? symbol with
  | none => simp [tuples_masterOf_eq_nil relationEq]
  | some relation =>
      rw [masterOf_eq relationEq]
      exact (valid symbol relation relationEq).masterIndex_valid.nodup_tuples

theorem Valid.nodup_tuplesOf (valid : store.Valid) (bounded : store.limits.Bounded) :
    (store.tuplesOf symbol).Nodup := by
  rw [tuplesOf_eq bounded]
  exact valid.nodup_tuples_masterOf symbol

theorem countDistinct_eq_length (store : FactStore) (symbol : RelationSymbol) :
    store.countDistinct symbol = (store.masterOf symbol).tuples.length := by
  cases relationEq : store.relation? symbol with
  | none => simp [countDistinct, relationEq, tuples_masterOf_eq_nil relationEq]
  | some relation =>
      simp [countDistinct, relationEq, masterOf_eq relationEq, Index.size, Index.tuples]

theorem countDistinct_eq (bounded : store.limits.Bounded) :
    store.countDistinct symbol = (store.tuplesOf symbol).length := by
  rw [tuplesOf_eq bounded, countDistinct_eq_length]

theorem Valid.has_iff (valid : store.Valid) (length : tuple.length = symbol.arity) :
    store.has symbol tuple = true ↔ store.Holds symbol tuple := by
  unfold has Holds
  cases relationEq : store.relation? symbol with
  | none => simp
  | some relation =>
      simp [(valid symbol relation relationEq).contains_iff length]

/-! ## Lookups -/

theorem Valid.index_valid (valid : store.Valid) {number : Nat} {index : Index}
    (indexEq : store.index? symbol number = some index) : index.Valid symbol.arity := by
  obtain ⟨relation, relationEq, atNumber⟩ := Option.bind_eq_some_iff.mp indexEq
  exact (valid symbol relation relationEq).indices_valid index (List.mem_of_getElem? atNumber)

theorem Valid.holds_of_entry (valid : store.Valid) {number : Nat} {index : Index}
    (indexEq : store.index? symbol number = some index) {entry : Entry}
    (member : entry ∈ index.entries) : store.Holds symbol entry.tuple := by
  obtain ⟨relation, relationEq, atNumber⟩ := Option.bind_eq_some_iff.mp indexEq
  exact ⟨relation, relationEq, (valid symbol relation relationEq).sound index
    (List.mem_of_getElem? atNumber) entry member⟩

theorem Valid.exists_entry (valid : store.Valid) {number : Nat} {index : Index}
    (indexEq : store.index? symbol number = some index) (holds : store.Holds symbol tuple) :
    ∃ entry ∈ index.entries, entry.key = index.pattern.keyOf tuple := by
  obtain ⟨relation, relationEq, atNumber⟩ := Option.bind_eq_some_iff.mp indexEq
  obtain ⟨relation', relationEq', member⟩ := holds
  obtain rfl : relation = relation' := Option.some.inj (relationEq.symm.trans relationEq')
  exact (valid symbol relation relationEq).complete index (List.mem_of_getElem? atNumber) tuple
    member

variable {number : Nat} {index : Index} {front : Key}

/-- A key has a value for each of the bound columns. -/
def FitsFront (symbol : RelationSymbol) (pattern : Pattern) (front : Key) : Prop :=
  ∀ tuple : Tuple, tuple.length = symbol.arity →
    front.length = (pattern.keepBound tuple).length

theorem FitsFront.le_keyColumns (fits : FitsFront symbol index.pattern front)
    (valid : index.Valid symbol.arity) : front.length ≤ index.pattern.keyColumns.length := by
  have length : (List.replicate symbol.arity TermId.least).length = index.pattern.length := by
    simp [valid.arity_eq]
  have := fits (List.replicate symbol.arity .least) (by simp)
  rw [← Pattern.length_keyOf index.pattern (List.replicate symbol.arity .least),
    Pattern.keyOf_eq length, List.length_append]
  omega

theorem Valid.from_get (valid : store.Valid) (bounded : store.limits.Bounded)
    (indexEq : store.index? symbol number = some index)
    (fits : FitsFront symbol index.pattern front) :
    (store.get symbol number front).From index front := by
  have indexValid := valid.index_valid indexEq
  simp only [get, indexEq]
  exact Index.from_view indexValid bounded fits
    (Index.confined_rangeOf (fits.le_keyColumns indexValid))

/-- The entries of an index that a lookup is about are those with the given values. -/
theorem Valid.mem_entriesIn_rangeOf (valid : store.Valid)
    (indexEq : store.index? symbol number = some index)
    (fits : FitsFront symbol index.pattern front) {entry : Entry} :
    entry ∈ index.entriesIn (index.rangeOf front) ↔
      entry ∈ index.entries ∧ index.pattern.keepBound entry.tuple = front := by
  have indexValid := valid.index_valid indexEq
  rw [Index.mem_entriesIn]
  refine and_congr_right fun member => ?_
  rw [Index.contains_rangeOf indexValid member (fits.le_keyColumns indexValid),
    indexValid.prefix_key_iff member (fits _ (indexValid.tuple_length entry member))]

/-- A tuple with the given values is found under its key. -/
theorem Valid.exists_found (valid : store.Valid) (indexEq : store.index? symbol number = some index)
    (fits : FitsFront symbol index.pattern front) (holds : store.Holds symbol tuple)
    (bound : index.pattern.keepBound tuple = front) :
    ∃ entry ∈ index.entriesIn (index.rangeOf front), entry.key = index.pattern.keyOf tuple := by
  have indexValid := valid.index_valid indexEq
  obtain ⟨entry, member, keyEq⟩ := valid.exists_entry indexEq holds
  have tupleLength := (valid.length_of_holds holds).trans indexValid.arity_eq.symm
  refine ⟨entry, Index.mem_entriesIn.mpr ⟨member, ?_⟩, keyEq⟩
  rw [Index.contains_rangeOf indexValid member (fits.le_keyColumns indexValid), keyEq,
    Pattern.keyOf_eq tupleLength, bound]
  exact List.prefix_append _ _

/-- A lookup covers the keys of all tuples that have the given values in the bound columns. -/
theorem Valid.covers_get (valid : store.Valid) (bounded : store.limits.Bounded)
    (indexEq : store.index? symbol number = some index)
    (fits : FitsFront symbol index.pattern front) (holds : store.Holds symbol tuple)
    (bound : index.pattern.keepBound tuple = front) :
    (store.get symbol number front).Covers index (index.pattern.keyOf tuple) := by
  obtain ⟨entry, found, keyEq⟩ := valid.exists_found indexEq fits holds bound
  obtain ⟨member, inRange⟩ := Index.mem_entriesIn.mp found
  simp only [get, indexEq]
  rw [← keyEq]
  exact Index.covers_view (valid.index_valid indexEq) bounded member inRange

/-- A lookup finds nothing exactly if no tuple has the given values in the bound columns. -/
theorem Valid.isEmpty_get (valid : store.Valid) (bounded : store.limits.Bounded)
    (indexEq : store.index? symbol number = some index)
    (fits : FitsFront symbol index.pattern front) :
    (store.get symbol number front).isEmpty = true ↔
      ∀ tuple, store.Holds symbol tuple → index.pattern.keepBound tuple ≠ front := by
  have lengthEq : (store.get symbol number front).length =
      (index.entriesIn (index.rangeOf front)).length := by
    simp only [get, indexEq]
    exact Index.length_view bounded
  simp only [View.isEmpty, decide_eq_true_eq, lengthEq, List.length_eq_zero_iff]
  constructor
  · intro none tuple holds bound
    obtain ⟨entry, found, -⟩ := valid.exists_found indexEq fits holds bound
    simp [none] at found
  · intro none
    refine List.eq_nil_iff_forall_not_mem.mpr fun entry found => ?_
    obtain ⟨member, bound⟩ := (valid.mem_entriesIn_rangeOf indexEq fits).mp found
    exact none entry.tuple (valid.holds_of_entry indexEq member) bound

/-! ## Adding tuples -/

theorem relation?_setRelation (store : FactStore) (symbol other : RelationSymbol)
    (relation : Relation) :
    (store.setRelation symbol relation).relation? other =
      if other = symbol then (store.relation? symbol).map fun _ => relation
      else store.relation? other := by
  obtain ⟨relations, limits⟩ := store
  simp only [relation?, setRelation]
  induction relations with
  | nil => simp
  | cons entry relations ih =>
      by_cases same : entry.1 = symbol
      · by_cases here : other = symbol
        · simp [same, here]
        · have apart : ¬ symbol = other := fun same => here same.symm
          simp only [List.map_cons, same, if_true, List.find?_cons_of_neg, apart, decide_false,
            Bool.false_eq_true, not_false_eq_true, here, if_false] at ih ⊢
          exact ih
      · by_cases here : other = symbol
        · subst here
          simpa [same] using ih
        · by_cases found : entry.1 = other
          · simp [here, found]
          · simpa [same, here, found] using ih

/-- What adding tuples of a relation makes of a store, and by how many tuples it grows. -/
structure Added (store later : FactStore) (symbol : RelationSymbol) (tuples : List Tuple)
    (count : Nat) : Prop where
  valid : later.Valid
  grows : later.Grows store
  holds_iff : ∀ other tuple, later.Holds other tuple ↔
    store.Holds other tuple ∨ other = symbol ∧ tuple ∈ tuples ∧ store.Registers symbol
  countDistinct : ∀ other, later.countDistinct other =
    store.countDistinct other + if other = symbol then count else 0

theorem added_unregistered (valid : store.Valid) (missing : store.relation? symbol = none)
    (tuples : List Tuple) : Added store store symbol tuples 0 where
  valid := valid
  grows := .refl store
  holds_iff other tuple := by simp [Registers, missing]
  countDistinct other := by simp

theorem added_setRelation (valid : store.Valid) {relation grown : Relation}
    (relationEq : store.relation? symbol = some relation) {tuples : List Tuple} {count : Nat}
    (added : Relation.Added symbol.arity relation grown tuples count) :
    Added store (store.setRelation symbol grown) symbol tuples count := by
  have lookupEq : ∀ other, (store.setRelation symbol grown).relation? other =
      if other = symbol then some grown else store.relation? other := by
    intro other
    rw [relation?_setRelation, relationEq, Option.map_some]
  have holdsIff : ∀ other tuple, (store.setRelation symbol grown).Holds other tuple ↔
      store.Holds other tuple ∨ other = symbol ∧ tuple ∈ tuples ∧ store.Registers symbol := by
    intro other tuple
    unfold Holds
    rw [lookupEq]
    by_cases here : other = symbol
    · subst here
      simp [Registers, relationEq, added.mem_tuples]
    · simp [here]
  refine ⟨fun other relation' found => ?_, ⟨rfl, fun other => ?_, fun other tuple holds =>
    (holdsIff other tuple).mpr (.inl holds)⟩, holdsIff, fun other => ?_⟩
  · rw [lookupEq] at found
    split at found
    · next here =>
        subst here
        cases found
        exact added.valid
    · exact valid other relation' found
  · rw [lookupEq]
    split
    · next here =>
        subst here
        rw [relationEq]
        exact .some added.grows
    · exact (Grows.refl store).relations other
  · simp only [FactStore.countDistinct, lookupEq]
    by_cases here : other = symbol
    · subst here
      simp [relationEq, added.size]
    · simp [here]

theorem Valid.addAll (valid : store.Valid) {tuples : List Tuple}
    (lengths : ∀ tuple ∈ tuples, tuple.length = symbol.arity) :
    Added store (store.addAll symbol tuples).2 symbol tuples (store.addAll symbol tuples).1 := by
  unfold FactStore.addAll
  split
  · next missing => exact added_unregistered valid missing tuples
  · next relation relationEq =>
      exact added_setRelation valid relationEq ((valid symbol relation relationEq).addAll lengths)

theorem Valid.add (valid : store.Valid) (length : tuple.length = symbol.arity) :
    Added store (store.add symbol tuple).2 symbol [tuple]
      (if (store.add symbol tuple).1 then 1 else 0) ∧
        ((store.add symbol tuple).1 = true ↔ store.Registers symbol ∧ ¬ store.Holds symbol tuple) := by
  unfold FactStore.add
  split
  · next missing =>
      exact ⟨added_unregistered valid missing [tuple], by simp [Registers, missing]⟩
  · next relation relationEq =>
      obtain ⟨added, isNew⟩ := (valid symbol relation relationEq).add length
      refine ⟨added_setRelation valid relationEq added, ?_⟩
      simp [Registers, Holds, relationEq, isNew]

/-! ## Removing tuples -/

theorem relation?_clear (store : FactStore) (symbol : RelationSymbol) :
    store.clear.relation? symbol = (store.relation? symbol).map Relation.clear := by
  obtain ⟨relations, limits⟩ := store
  simp only [relation?, clear]
  induction relations with
  | nil => rfl
  | cons entry relations ih =>
      by_cases found : entry.1 = symbol
      · simp [found]
      · simpa [found] using ih

theorem Valid.clear (valid : store.Valid) : store.clear.Valid := by
  intro symbol relation found
  rw [relation?_clear] at found
  obtain ⟨old, oldEq, rfl⟩ := Option.map_eq_some_iff.mp found
  exact (valid symbol old oldEq).clear

theorem Valid.not_holds_clear (valid : store.Valid) : ¬ store.clear.Holds symbol tuple := by
  rintro ⟨relation, found, member⟩
  rw [relation?_clear] at found
  obtain ⟨old, oldEq, rfl⟩ := Option.map_eq_some_iff.mp found
  simp [Relation.tuples_clear (valid symbol old oldEq)] at member

theorem registers_clear : store.clear.Registers symbol ↔ store.Registers symbol := by
  simp [Registers, relation?_clear]

theorem provides_clear {pattern : Pattern} :
    store.clear.Provides symbol number pattern ↔ store.Provides symbol number pattern := by
  have indexEq : store.clear.index? symbol number = (store.index? symbol number).map Index.clear := by
    unfold FactStore.index?
    rw [relation?_clear]
    cases store.relation? symbol with
    | none => rfl
    | some relation => simp [Relation.clear]
  unfold Provides
  rw [indexEq]
  cases store.index? symbol number with
  | none => simp
  | some index => simp [Index.clear]

end FactStore

end Datalog
