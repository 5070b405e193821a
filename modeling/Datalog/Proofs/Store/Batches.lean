import Datalog.Proofs.Store.History

/-!
# Batches of tuples

A batch is put into all indices of a relation, and only its total number of new tuples decides whether
anything is done.  Tuples that are added one after another are put into the indices only if the master
did not hold them.  The indices of a valid relation agree with its master, so that a tuple which is not
new finds its key taken everywhere, and both ways leave the same store.
-/

namespace Datalog

namespace Relation

variable {arity : Nat} {relation : Relation} {tuple : Tuple} {tuples : List Tuple}

theorem extend_extend (relation : Relation) (front back : List Tuple) :
    (relation.extend front).extend back = relation.extend (front ++ back) := by
  have appended : ∀ index : Index, ((index.insertAll front).2.insertAll back).2 =
      (index.insertAll (front ++ back)).2 := by
    intro index
    induction front generalizing index with
    | nil => rfl
    | cons tuple front ih => exact ih (index.insert tuple).2
  simp [extend, List.map_map, Function.comp_def, appended]

/-- The answer to a batch is that of the master, and all of it is put into every index. -/
theorem Valid.addAll_eq (valid : relation.Valid arity)
    (lengths : ∀ tuple ∈ tuples, tuple.length = arity) :
    relation.addAll tuples = ((relation.masterIndex.insertAll tuples).1, relation.extend tuples) := by
  refine Prod.ext ?_ (valid.addAll_eq_extend lengths)
  unfold Relation.addAll
  split
  · next none => exact none.symm
  · rfl

theorem Valid.add_eq (valid : relation.Valid arity) (length : tuple.length = arity) :
    relation.add tuple = ((relation.masterIndex.insert tuple).1, relation.extend [tuple]) := by
  refine Prod.ext ?_ (valid.add_eq_extend length)
  unfold Relation.add
  split
  · next present =>
      have taken : ∃ entry ∈ relation.masterIndex.entries,
          entry.key = relation.masterIndex.pattern.keyOf tuple := by
        simpa [Index.contains] using present
      rw [valid.masterIndex_valid.insert_eq_self taken]
  · next absent =>
      unfold Index.insert
      split
      · rfl
      · next refused =>
          have taken := Index.exists_key_of_addSorted? refused
          exact absurd (by simpa [Index.contains, Index.entryOf] using taken) absent

theorem Valid.addAll_cons (valid : relation.Valid arity) (length : tuple.length = arity)
    (lengths : ∀ tuple ∈ tuples, tuple.length = arity) :
    relation.addAll (tuple :: tuples) =
      (((relation.add tuple).2.addAll tuples).1 + (if (relation.add tuple).1 then 1 else 0),
        ((relation.add tuple).2.addAll tuples).2) := by
  have lengthsHere : ∀ other ∈ [tuple], other.length = arity := by simpa using length
  have inMaster : (relation.extend [tuple]).masterIndex = (relation.masterIndex.insert tuple).2 :=
    masterIndex_extend valid [tuple]
  rw [valid.addAll_eq (List.forall_mem_cons.mpr ⟨length, lengths⟩), valid.add_eq length,
    (valid.extend lengthsHere).addAll_eq lengths, extend_extend, inMaster]
  refine Prod.ext ?_ rfl
  simp only [Index.insertAll]
  split <;> rfl

end Relation

namespace FactStore

variable {store : FactStore} {symbol : RelationSymbol} {tuple : Tuple} {tuples : List Tuple}

/-- Add tuples one after another, and list the answers. -/
def addEach (store : FactStore) (symbol : RelationSymbol) : List Tuple → List Bool × FactStore
  | [] => ([], store)
  | tuple :: tuples =>
      let (isNew, store) := store.add symbol tuple
      let (answers, store) := store.addEach symbol tuples
      (isNew :: answers, store)

theorem setRelation_setRelation (store : FactStore) (symbol : RelationSymbol)
    (relation later : Relation) :
    (store.setRelation symbol relation).setRelation symbol later =
      store.setRelation symbol later := by
  simp only [setRelation, List.map_map]
  congr 1
  refine List.map_congr_left fun entry _ => ?_
  by_cases here : entry.1 = symbol <;> simp [here]

theorem setRelation_self (distinct : store.symbols.Nodup) {relation : Relation}
    (found : store.relation? symbol = some relation) : store.setRelation symbol relation = store := by
  have unchanged : ∀ entry ∈ store.relations,
      (if entry.1 = symbol then (symbol, relation) else entry) = entry := by
    intro entry member
    split
    · next here =>
        have := (relation?_eq_some_iff distinct).mpr (here ▸ member : (symbol, entry.2) ∈ _)
        rw [found] at this
        exact Prod.ext here.symm (Option.some.inj this)
    · rfl
  obtain ⟨relations, limits⟩ := store
  simp only [setRelation, List.map_congr_left unchanged, List.map_id']

theorem addAll_nil (distinct : store.symbols.Nodup) : store.addAll symbol [] = (0, store) := by
  unfold addAll
  split
  · rfl
  · next relation found => exact Prod.ext rfl (setRelation_self distinct found)

theorem Valid.addAll_cons (valid : store.Valid) (length : tuple.length = symbol.arity)
    (lengths : ∀ tuple ∈ tuples, tuple.length = symbol.arity) :
    store.addAll symbol (tuple :: tuples) =
      (((store.add symbol tuple).2.addAll symbol tuples).1 +
          (if (store.add symbol tuple).1 then 1 else 0),
        ((store.add symbol tuple).2.addAll symbol tuples).2) := by
  cases found : store.relation? symbol with
  | none => simp [FactStore.addAll, FactStore.add, found]
  | some relation =>
      have foundLater : (store.setRelation symbol (relation.add tuple).2).relation? symbol =
          some (relation.add tuple).2 := by
        simp [relation?_setRelation, found]
      simp only [FactStore.addAll, FactStore.add, found, foundLater, setRelation_setRelation,
        (valid symbol relation found).addAll_cons length lengths]

theorem Valid.addAll_eq_addEach (valid : store.Valid) (distinct : store.symbols.Nodup)
    (lengths : ∀ tuple ∈ tuples, tuple.length = symbol.arity) :
    store.addAll symbol tuples =
      ((store.addEach symbol tuples).1.count true, (store.addEach symbol tuples).2) := by
  induction tuples generalizing store with
  | nil => exact addAll_nil distinct
  | cons tuple tuples ih =>
      obtain ⟨length, lengths⟩ := List.forall_mem_cons.mp lengths
      have laterValid : (store.add symbol tuple).2.Valid :=
        valid.apply (show (Update.add symbol tuple).Fits from length)
      have laterDistinct : (store.add symbol tuple).2.symbols.Nodup := by
        rwa [show (store.add symbol tuple).2.symbols = store.symbols from
          symbols_apply store (.add symbol tuple)]
      rw [valid.addAll_cons length lengths, ih laterValid laterDistinct lengths, addEach]
      simp [List.count_cons]

/-- Whatever has been done to a store before, a batch is answered with the number of its tuples that
are new when they are added one after another, and it leaves the store that they leave. -/
theorem ofUpdates_addAll_eq_addEach (symbols : List RelationSymbol)
    (requests : List (RelationSymbol × Pattern)) (config : Config) (updates : List Update)
    (fits : ∀ update ∈ updates, update.Fits) (symbol : RelationSymbol) (tuples : List Tuple)
    (lengths : ∀ tuple ∈ tuples, tuple.length = symbol.arity) :
    (ofUpdates symbols requests config updates).addAll symbol tuples =
      (((ofUpdates symbols requests config updates).addEach symbol tuples).1.count true,
        ((ofUpdates symbols requests config updates).addEach symbol tuples).2) :=
  (records_ofUpdates fits).valid.addAll_eq_addEach (records_ofUpdates fits).distinct lengths

/-- Two new edges, one of them twice, between edges that are there. -/
def sampleBatch : List Tuple :=
  [[⟨3⟩, ⟨6⟩], [⟨1⟩, ⟨3⟩], [⟨3⟩, ⟨4⟩], [⟨3⟩, ⟨6⟩], [⟨2⟩, ⟨5⟩]]

theorem ofUpdates_addAll_eq_addEach_sample :
    (∀ update ∈ sampleUpdates, update.Fits) ∧
      (∀ tuple ∈ sampleBatch, tuple.length = (⟨"edge", 2⟩ : RelationSymbol).arity) ∧
        (ofUpdates [⟨"edge", 2⟩] [(⟨"edge", 2⟩, [.bound, .ignored])] {} sampleUpdates).addAll
            ⟨"edge", 2⟩ sampleBatch =
          (((ofUpdates [⟨"edge", 2⟩] [(⟨"edge", 2⟩, [.bound, .ignored])] {} sampleUpdates).addEach
              ⟨"edge", 2⟩ sampleBatch).1.count true,
            ((ofUpdates [⟨"edge", 2⟩] [(⟨"edge", 2⟩, [.bound, .ignored])] {} sampleUpdates).addEach
              ⟨"edge", 2⟩ sampleBatch).2) := by
  have fits : ∀ update ∈ sampleUpdates, update.Fits := by simp [sampleUpdates, Update.Fits]
  have lengths : ∀ tuple ∈ sampleBatch, tuple.length = (⟨"edge", 2⟩ : RelationSymbol).arity := by
    decide
  exact ⟨fits, lengths, ofUpdates_addAll_eq_addEach _ _ _ _ fits _ _ lengths⟩

/-- The projection keeps the first of the two edges that start at a new place. -/
example : ((ofUpdates [⟨"edge", 2⟩] [(⟨"edge", 2⟩, [.bound, .ignored])] {} sampleUpdates).addEach
    ⟨"edge", 2⟩ sampleBatch).1 = [true, false, true, false, false] ∧
      (((ofUpdates [⟨"edge", 2⟩] [(⟨"edge", 2⟩, [.bound, .ignored])] {} sampleUpdates).addAll
        ⟨"edge", 2⟩ sampleBatch).2.index? ⟨"edge", 2⟩ 0).map Index.tuples =
          some [[⟨1⟩, ⟨5⟩], [⟨2⟩, ⟨5⟩], [⟨3⟩, ⟨6⟩]] := by
  decide +kernel

end FactStore

end Datalog
