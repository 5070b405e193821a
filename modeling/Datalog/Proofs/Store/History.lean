import Datalog.Proofs.Store.Representatives
import Datalog.Proofs.Stratification

/-!
# Stores told by what has been put into them

A store is built from the indices that were asked for and then changed by adding and removing tuples.
Each change either empties a relation or adds tuples to all of its indices, so that the store is
described by the tuples that were put into each relation since it was last emptied: the master holds
these tuples, every other index the first one for each of its keys, and the answers to further
additions follow from them.
-/

namespace Datalog

namespace StorePlan

variable {plan later : StorePlan} {symbol : RelationSymbol} {pattern : Pattern}

def symbols (plan : StorePlan) : List RelationSymbol :=
  plan.patterns.map (·.1)

/-- Ask for indices one after another.  A request that is refused changes nothing. -/
def requestAll (plan : StorePlan) : List (RelationSymbol × Pattern) → StorePlan
  | [] => plan
  | (symbol, pattern) :: requests =>
      match plan.request symbol pattern with
      | .ok (_, extended) => extended.requestAll requests
      | .error _ => plan.requestAll requests

theorem isSome_patterns?_iff : (plan.patterns? symbol).isSome = true ↔ symbol ∈ plan.symbols := by
  simp [patterns?, symbols]

theorem symbols_ofSymbols (symbols : List RelationSymbol) :
    (ofSymbols symbols).symbols = symbols.eraseDups := by
  simp [ofSymbols, StorePlan.symbols, List.map_map, Function.comp_def]

theorem symbols_request {number : Nat}
    (requested : plan.request symbol pattern = .ok (number, later)) : later.symbols = plan.symbols := by
  unfold request at requested
  split at requested
  · cases requested
  · split at requested
    · cases requested
    · split at requested
      · cases requested
        rfl
      · cases requested
        simp only [symbols, List.map_map]
        refine List.map_congr_left fun entry _ => ?_
        simp only [Function.comp_apply]
        split
        · next here => exact here.symm
        · rfl

theorem exists_request (known : symbol ∈ plan.symbols) (length : pattern.length = symbol.arity) :
    ∃ number later, plan.request symbol pattern = .ok (number, later) := by
  obtain ⟨patterns, patternsEq⟩ := Option.isSome_iff_exists.mp (isSome_patterns?_iff.mpr known)
  obtain ⟨entry, found, rfl⟩ := Option.map_eq_some_iff.mp patternsEq
  cases placed : entry.2.findIdx? (· = pattern) <;> simp [request, found, length, placed]

theorem requestAll_append (plan : StorePlan) (requests others : List (RelationSymbol × Pattern)) :
    plan.requestAll (requests ++ others) = (plan.requestAll requests).requestAll others := by
  induction requests generalizing plan with
  | nil => rfl
  | cons request requests ih =>
      obtain ⟨symbol, pattern⟩ := request
      rw [List.cons_append, requestAll, requestAll]
      split <;> exact ih _

theorem requestAll_spec (valid : plan.Valid) (requests : List (RelationSymbol × Pattern)) :
    (plan.requestAll requests).Valid ∧ (plan.requestAll requests).Extends plan ∧
      (plan.requestAll requests).symbols = plan.symbols := by
  induction requests generalizing plan with
  | nil => exact ⟨valid, .refl plan, rfl⟩
  | cons request requests ih =>
      obtain ⟨symbol, pattern⟩ := request
      unfold requestAll
      split
      · next number extended requested =>
          obtain ⟨extendedValid, extends_, -, -⟩ := request_ok valid requested
          obtain ⟨laterValid, laterExtends, laterSymbols⟩ := ih extendedValid
          exact ⟨laterValid, laterExtends.trans extends_,
            laterSymbols.trans (symbols_request requested)⟩
      · exact ih valid

theorem exists_requests (valid : plan.Valid) {requests : List (RelationSymbol × Pattern)}
    (asked : (symbol, pattern) ∈ requests) (known : symbol ∈ plan.symbols)
    (length : pattern.length = symbol.arity) :
    ∃ number, (plan.requestAll requests).Requests symbol number pattern := by
  induction requests generalizing plan with
  | nil => simp at asked
  | cons request requests ih =>
      obtain ⟨other, otherPattern⟩ := request
      unfold requestAll
      rcases List.mem_cons.mp asked with same | asked
      · cases same
        obtain ⟨number, extended, requested⟩ := exists_request known length
        obtain ⟨extendedValid, -, -, requests_⟩ := request_ok valid requested
        rw [requested]
        exact ⟨number, (requestAll_spec extendedValid requests).2.1.requests _ _ _ requests_⟩
      · split
        · next number extended requested =>
            exact ih (request_ok valid requested).1 asked (symbols_request requested ▸ known)
        · exact ih valid asked known

end StorePlan

theorem Relation.entries_ofPatterns {arity : Nat} {patterns : List Pattern} {index : Index}
    (member : index ∈ (ofPatterns arity patterns).indices) : index.entries = [] := by
  have ofPattern : ∀ {pattern : Pattern}, ({ pattern } : Index).entries = [] := rfl
  unfold ofPatterns at member
  split at member
  · obtain ⟨pattern, -, rfl⟩ := List.mem_map.mp member
    exact ofPattern
  · rcases List.mem_append.mp member with member | member
    · obtain ⟨pattern, -, rfl⟩ := List.mem_map.mp member
      exact ofPattern
    · obtain rfl := List.mem_singleton.mp member
      exact ofPattern

namespace FactStore

variable {store : FactStore} {symbol : RelationSymbol}

/-! ## Relations as entries of the store -/

theorem relation?_eq_some_iff (distinct : store.symbols.Nodup) {relation : Relation} :
    store.relation? symbol = some relation ↔ (symbol, relation) ∈ store.relations := by
  obtain ⟨relations, limits⟩ := store
  simp only [relation?, symbols] at distinct ⊢
  induction relations with
  | nil => simp
  | cons entry relations ih =>
      obtain ⟨apart, distinct⟩ := List.nodup_cons.mp distinct
      by_cases here : entry.1 = symbol
      · have elsewhere : (symbol, relation) ∉ relations := fun member =>
          apart (List.mem_map.mpr ⟨_, member, here.symm⟩)
        simp [here, elsewhere, Prod.ext_iff, eq_comm]
      · have notHere : (symbol, relation) ≠ entry := fun same => here (same ▸ rfl)
        simpa [here, notHere] using ih distinct

theorem registers_iff_mem : store.Registers symbol ↔ symbol ∈ store.symbols := by
  simp [Registers, relation?, symbols]

@[simp] theorem symbols_setRelation (store : FactStore) (symbol : RelationSymbol)
    (relation : Relation) : (store.setRelation symbol relation).symbols = store.symbols := by
  simp only [symbols, setRelation, List.map_map]
  refine List.map_congr_left fun entry _ => ?_
  simp only [Function.comp_apply]
  split
  · next here => exact here.symm
  · rfl

/-! ## Updates -/

/-- Something that is done to a store. -/
inductive Update where
  | add (symbol : RelationSymbol) (tuple : Tuple)
  | addAll (symbol : RelationSymbol) (tuples : List Tuple)
  | clear
  | clearRelation (symbol : RelationSymbol)

namespace Update

/-- The tuples of an update have as many columns as their relation. -/
def Fits : Update → Prop
  | .add symbol tuple => tuple.length = symbol.arity
  | .addAll symbol tuples => ∀ tuple ∈ tuples, tuple.length = symbol.arity
  | .clear | .clearRelation _ => True

def apply (store : FactStore) : Update → FactStore
  | .add symbol tuple => (store.add symbol tuple).2
  | .addAll symbol tuples => (store.addAll symbol tuples).2
  | .clear => store.clear
  | .clearRelation symbol => store.clearRelation symbol

/-- The tuples that an update puts into a relation, or nothing if it empties the relation. -/
def added? (symbol : RelationSymbol) : Update → Option (List Tuple)
  | .add other tuple => some (if other = symbol then [tuple] else [])
  | .addAll other tuples => some (if other = symbol then tuples else [])
  | .clear => none
  | .clearRelation other => if other = symbol then none else some []

/-- The tuples that have been put into a relation since it was last emptied, after an update. -/
def record (symbol : RelationSymbol) (history : List Tuple) (update : Update) : List Tuple :=
  (update.added? symbol).elim [] (history ++ ·)

/-- The relation that an update leaves. -/
def change (symbol : RelationSymbol) (update : Update) (relation : Relation) : Relation :=
  (update.added? symbol).elim relation.clear relation.extend

end Update

def applyAll (store : FactStore) (updates : List Update) : FactStore :=
  updates.foldl Update.apply store

/-- The tuples that some updates have put into a relation since it was last emptied, in order. -/
def history (updates : List Update) (symbol : RelationSymbol) : List Tuple :=
  updates.foldl (Update.record symbol) []

theorem applyAll_concat (store : FactStore) (updates : List Update) (update : Update) :
    store.applyAll (updates ++ [update]) = update.apply (store.applyAll updates) := by
  simp [applyAll]

theorem history_concat (updates : List Update) (update : Update) :
    history (updates ++ [update]) = fun symbol => update.record symbol (history updates symbol) := by
  funext symbol
  simp [history]

/-- A store with one of its relations changed. -/
def modify (store : FactStore) (symbol : RelationSymbol) (change : Relation → Relation) : FactStore :=
  match store.relation? symbol with
  | none => store
  | some relation => store.setRelation symbol (change relation)

theorem add_eq_modify (store : FactStore) (symbol : RelationSymbol) (tuple : Tuple) :
    (store.add symbol tuple).2 = store.modify symbol fun relation => (relation.add tuple).2 := by
  unfold add modify
  split <;> simp [*]

theorem addAll_eq_modify (store : FactStore) (symbol : RelationSymbol) (tuples : List Tuple) :
    (store.addAll symbol tuples).2 =
      store.modify symbol fun relation => (relation.addAll tuples).2 := by
  unfold addAll modify
  split <;> simp [*]

theorem clearRelation_eq_modify (store : FactStore) (symbol : RelationSymbol) :
    store.clearRelation symbol = store.modify symbol Relation.clear :=
  rfl

theorem relation?_modify (store : FactStore) (symbol other : RelationSymbol)
    (change : Relation → Relation) :
    (store.modify other change).relation? symbol =
      if other = symbol then (store.relation? symbol).map change else store.relation? symbol := by
  unfold modify
  split
  · next missing =>
      split
      · next here => simp [← here, missing]
      · rfl
  · next relation relationEq =>
      rw [relation?_setRelation, relationEq]
      by_cases here : other = symbol
      · simp [← here, relationEq]
      · simp [here, Ne.symm here]

theorem symbols_apply (store : FactStore) (update : Update) :
    (update.apply store).symbols = store.symbols := by
  have symbolsModify : ∀ symbol change, (store.modify symbol change).symbols = store.symbols := by
    intro symbol change
    unfold modify
    split
    · rfl
    · exact symbols_setRelation store symbol _
  cases update with
  | add symbol tuple =>
      rw [Update.apply, add_eq_modify]
      exact symbolsModify symbol _
  | addAll symbol tuples =>
      rw [Update.apply, addAll_eq_modify]
      exact symbolsModify symbol _
  | clear => simp [Update.apply, clear, symbols]
  | clearRelation symbol => exact symbolsModify symbol _

/-- An update does the same to all indices of a relation: it empties them or adds tuples to them. -/
theorem relation?_apply (valid : store.Valid) {update : Update} (fits : update.Fits)
    (symbol : RelationSymbol) :
    (update.apply store).relation? symbol = (store.relation? symbol).map (update.change symbol) := by
  -- Every update but the clearing of the store is a modification, of this relation or of another.
  have elsewhere (other : RelationSymbol) (change : Relation → Relation)
      (untouched : update.added? symbol = some []) (apart : other ≠ symbol) :
      (store.modify other change).relation? symbol =
        (store.relation? symbol).map (update.change symbol) := by
    rw [relation?_modify, if_neg apart]
    cases store.relation? symbol <;>
      simp [Update.change, untouched, Relation.extend, Index.insertAll]
  have here (change : Relation → Relation)
      (same : ∀ relation, store.relation? symbol = some relation →
        change relation = update.change symbol relation) :
      (store.modify symbol change).relation? symbol =
        (store.relation? symbol).map (update.change symbol) := by
    rw [relation?_modify, if_pos rfl]
    exact Option.map_congr fun relation found => same relation found
  cases update with
  | add other tuple =>
      rw [Update.apply, add_eq_modify]
      by_cases isHere : other = symbol
      · subst isHere
        refine here _ fun relation found => ?_
        simpa [Update.change, Update.added?] using (valid other relation found).add_eq_extend fits
      · exact elsewhere other _ (by simp [Update.added?, isHere]) isHere
  | addAll other tuples =>
      rw [Update.apply, addAll_eq_modify]
      by_cases isHere : other = symbol
      · subst isHere
        refine here _ fun relation found => ?_
        simpa [Update.change, Update.added?] using
          (valid other relation found).addAll_eq_extend fits
      · exact elsewhere other _ (by simp [Update.added?, isHere]) isHere
  | clear => exact relation?_clear store symbol
  | clearRelation other =>
      rw [Update.apply, clearRelation_eq_modify]
      by_cases isHere : other = symbol
      · subst isHere
        exact here _ fun relation _ => by simp [Update.change, Update.added?]
      · exact elsewhere other _ (by simp [Update.added?, isHere]) isHere

/-! ## What a store records -/

theorem Update.Fits.lengths {update : Update} (fits : update.Fits) {tuples : List Tuple}
    (added : update.added? symbol = some tuples) : ∀ tuple ∈ tuples, tuple.length = symbol.arity := by
  cases update with
  | add other tuple =>
      obtain rfl := Option.some.inj added
      split
      · next here => exact List.forall_mem_singleton.mpr (here ▸ fits)
      · simp
  | addAll other others =>
      obtain rfl := Option.some.inj added
      split
      · next here => exact here ▸ fits
      · simp
  | clear => cases added
  | clearRelation other =>
      simp only [Update.added?] at added
      split at added
      · cases added
      · obtain rfl := Option.some.inj added
        simp

/-- Every index of a store holds the first tuples with its keys of those put into its relation. -/
structure Records (store : FactStore) (history : RelationSymbol → List Tuple) : Prop where
  valid : store.Valid
  distinct : store.symbols.Nodup
  lengths : ∀ symbol, ∀ tuple ∈ history symbol, tuple.length = symbol.arity
  keepsFirst : ∀ symbol relation, store.relation? symbol = some relation →
    ∀ index ∈ relation.indices, index.KeepsFirst (history symbol)

variable {history : RelationSymbol → List Tuple}

theorem Valid.apply (valid : store.Valid) {update : Update} (fits : update.Fits) :
    (update.apply store).Valid := by
  intro symbol relation found
  rw [relation?_apply valid fits] at found
  obtain ⟨old, oldEq, rfl⟩ := Option.map_eq_some_iff.mp found
  have oldValid := valid symbol old oldEq
  unfold Update.change
  cases added : update.added? symbol with
  | none => exact oldValid.clear
  | some tuples => exact oldValid.extend (fits.lengths added)

theorem Records.apply (records : store.Records history) {update : Update} (fits : update.Fits) :
    (update.apply store).Records fun symbol => update.record symbol (history symbol) where
  valid := records.valid.apply fits
  distinct := by
    rw [symbols_apply]
    exact records.distinct
  lengths symbol := by
    unfold Update.record
    cases added : update.added? symbol with
    | none => simp
    | some tuples =>
        exact List.forall_mem_append.mpr ⟨records.lengths symbol, fits.lengths added⟩
  keepsFirst symbol relation found := by
    rw [relation?_apply records.valid fits] at found
    obtain ⟨old, oldEq, rfl⟩ := Option.map_eq_some_iff.mp found
    unfold Update.change Update.record
    cases added : update.added? symbol with
    | none =>
        rintro index member
        obtain ⟨oldIndex, -, rfl⟩ := List.mem_map.mp member
        exact Index.keepsFirst_nil rfl
    | some tuples =>
        rintro index member
        obtain ⟨oldIndex, oldMember, rfl⟩ := List.mem_map.mp member
        exact (records.keepsFirst symbol old oldEq oldIndex oldMember).insertAll
          ((records.valid symbol old oldEq).indices_valid oldIndex oldMember) (fits.lengths added)

end FactStore

theorem StorePlan.symbols_build (plan : StorePlan) (config : Config) :
    (plan.build config).symbols = plan.symbols := by
  simp [FactStore.symbols, StorePlan.build, StorePlan.symbols]

theorem StorePlan.records_build {plan : StorePlan} (valid : plan.Valid)
    (distinct : plan.symbols.Nodup) (config : Config) : (plan.build config).Records fun _ => [] where
  valid := StorePlan.valid_build valid
  distinct := by rwa [StorePlan.symbols_build]
  lengths := by simp
  keepsFirst symbol relation found index member := by
    rw [StorePlan.relation?_build] at found
    obtain ⟨patterns, -, rfl⟩ := Option.map_eq_some_iff.mp found
    exact Index.keepsFirst_nil (Relation.entries_ofPatterns member)

namespace FactStore

variable {store : FactStore} {symbol : RelationSymbol} {history : RelationSymbol → List Tuple}

theorem symbols_applyAll (store : FactStore) (updates : List Update) :
    (store.applyAll updates).symbols = store.symbols := by
  induction updates using List.reverseRecOn with
  | nil => rfl
  | append_singleton updates update ih =>
      rw [applyAll_concat, symbols_apply, ih]

theorem provides_apply (valid : store.Valid) {update : Update} (fits : update.Fits) {number : Nat}
    {pattern : Pattern} (provides : store.Provides symbol number pattern) :
    (update.apply store).Provides symbol number pattern := by
  obtain ⟨index, indexEq, rfl⟩ := provides
  obtain ⟨relation, relationEq, atNumber⟩ := Option.bind_eq_some_iff.mp indexEq
  unfold Provides index?
  rw [relation?_apply valid fits, relationEq]
  unfold Update.change
  cases update.added? symbol with
  | none => exact ⟨index.clear, by simp [Relation.clear, atNumber], rfl⟩
  | some tuples =>
      exact ⟨(index.insertAll tuples).2, by simp [Relation.extend, atNumber],
        Index.pattern_insertAll index tuples⟩

theorem Records.applyAll (records : store.Records fun _ => []) {updates : List Update}
    (fits : ∀ update ∈ updates, update.Fits) :
    (store.applyAll updates).Records (FactStore.history updates) := by
  induction updates using List.reverseRecOn with
  | nil => exact records
  | append_singleton updates update ih =>
      obtain ⟨earlier, last⟩ := List.forall_mem_append.mp fits
      rw [applyAll_concat, history_concat]
      exact (ih earlier).apply (last update List.mem_cons_self)

/-- The limits of views do not matter for what a store holds. -/
theorem apply_limits (store : FactStore) (limits : ViewLimits) (update : Update) :
    update.apply { store with limits } = { update.apply store with limits } := by
  cases update with
  | add symbol tuple =>
      simp only [Update.apply, add, relation?]
      split <;> rfl
  | addAll symbol tuples =>
      simp only [Update.apply, addAll, relation?]
      split <;> rfl
  | clear => rfl
  | clearRelation symbol =>
      simp only [Update.apply, clearRelation, relation?]
      split <;> rfl

theorem applyAll_limits (store : FactStore) (limits : ViewLimits) (updates : List Update) :
    applyAll { store with limits } updates = { store.applyAll updates with limits } := by
  induction updates using List.reverseRecOn with
  | nil => rfl
  | append_singleton updates update ih => rw [applyAll_concat, applyAll_concat, ih, apply_limits]

theorem Records.holds_iff (records : store.Records history) {tuple : Tuple} :
    store.Holds symbol tuple ↔ store.Registers symbol ∧ tuple ∈ history symbol := by
  unfold Holds Registers
  cases relationEq : store.relation? symbol with
  | none => simp
  | some relation =>
      have relationValid := records.valid symbol relation relationEq
      have masterIff : tuple ∈ relation.masterIndex.tuples ↔ tuple ∈ history symbol :=
        (records.keepsFirst symbol relation relationEq _
          relationValid.masterIndex_mem).mem_tuples_iff relationValid.masterIndex_valid
            relationValid.masterIndex_allFree (records.lengths symbol)
      simp [masterIff]

theorem Records.firstDisagreement?_eq_none (records : store.Records history) :
    store.firstDisagreement? = none := by
  refine List.findSome?_eq_none_iff.mpr fun entry member => ?_
  refine List.findSome?_eq_none_iff.mpr fun index indexMember => ?_
  have found := (relation?_eq_some_iff records.distinct).mpr member
  exact (records.valid _ _ found).disagreement?_eq_none _ indexMember

/-- What a store holds and what it answers, told by the relations it was built for and by the tuples
that have been put into each of them since it was last emptied. -/
structure Reflects (store : FactStore) (symbols : List RelationSymbol)
    (history : RelationSymbol → List Tuple) : Prop where
  registers_iff : ∀ symbol, store.Registers symbol ↔ symbol ∈ symbols
  /-- One index of each relation is its master, which reads every column. -/
  master : ∀ symbol ∈ symbols, (store.masterOf symbol).pattern.isAllFree = true ∧
    ∃ number, store.index? symbol number = some (store.masterOf symbol)
  holds_iff : ∀ symbol tuple, store.Holds symbol tuple ↔ symbol ∈ symbols ∧ tuple ∈ history symbol
  /-- An index without ignored columns holds the tuples of the master, each once. -/
  complete : ∀ symbol number index, store.index? symbol number = some index →
    index.pattern.isProjection = false →
      index.tuples.Nodup ∧ index.tuples.Perm (store.masterOf symbol).tuples
  /-- An index with ignored columns has one entry for each key of the master's tuples, the first that
  was put in. -/
  projected : ∀ symbol number index, store.index? symbol number = some index →
    index.pattern.isProjection = true →
      (index.entries.map (·.key)).Nodup ∧
        (∀ key, (∃ entry ∈ index.entries, entry.key = key) ↔
          ∃ tuple, store.Holds symbol tuple ∧ index.pattern.keyOf tuple = key) ∧
          ∀ entry ∈ index.entries,
            (history symbol).find? (index.pattern.keyOf · = entry.key) = some entry.tuple
  add_iff : ∀ symbol tuple, tuple.length = symbol.arity →
    ((store.add symbol tuple).1 = true ↔ symbol ∈ symbols ∧ ¬ store.Holds symbol tuple)
  /-- Adding tuples is answered with the number of different ones that are new. -/
  addAll_eq : ∀ symbol ∈ symbols, ∀ tuples, (∀ tuple ∈ tuples, tuple.length = symbol.arity) →
    (store.addAll symbol tuples).1 =
      (tuples.toFinset \ (store.masterOf symbol).tuples.toFinset).card
  unregistered : ∀ symbol, symbol ∉ symbols →
    (∀ tuple, store.add symbol tuple = (false, store)) ∧
      ∀ tuples, store.addAll symbol tuples = (0, store)
  consistent : store.firstDisagreement? = none

theorem Records.reflects (records : store.Records history) {symbols : List RelationSymbol}
    (registersIff : ∀ symbol, store.Registers symbol ↔ symbol ∈ symbols) :
    store.Reflects symbols history where
  registers_iff := registersIff
  master symbol known := by
    obtain ⟨relation, relationEq⟩ := Option.isSome_iff_exists.mp ((registersIff symbol).mpr known)
    have relationValid := records.valid symbol relation relationEq
    obtain ⟨index, atMaster, -⟩ := relationValid.master_allFree
    rw [masterOf_eq relationEq]
    refine ⟨relationValid.masterIndex_allFree, relation.master, ?_⟩
    simp [index?, relationEq, atMaster, Relation.masterIndex_eq atMaster]
  holds_iff symbol tuple := by rw [records.holds_iff, registersIff]
  complete symbol number index indexEq withoutIgnored := by
    obtain ⟨relation, relationEq, atNumber⟩ := Option.bind_eq_some_iff.mp indexEq
    have relationValid := records.valid symbol relation relationEq
    have member := List.mem_of_getElem? atNumber
    rw [masterOf_eq relationEq]
    exact ⟨(relationValid.indices_valid index member).nodup_tuples,
      relationValid.tuples_perm member withoutIgnored⟩
  projected symbol number index indexEq _ := by
    obtain ⟨relation, relationEq, atNumber⟩ := Option.bind_eq_some_iff.mp indexEq
    have member := List.mem_of_getElem? atNumber
    have keeps := records.keepsFirst symbol relation relationEq index member
    have known : store.Registers symbol := by simp [Registers, relationEq]
    refine ⟨((records.valid symbol relation relationEq).indices_valid index member).nodup_keys,
      fun key => ?_, fun entry entryMember => (keeps entry).mp entryMember⟩
    simp [keeps.exists_key_iff, records.holds_iff, known]
  add_iff symbol tuple length := by
    rw [(records.valid.add length).2, registersIff]
  addAll_eq symbol known tuples lengths := by
    obtain ⟨relation, relationEq⟩ := Option.isSome_iff_exists.mp ((registersIff symbol).mpr known)
    have relationValid := records.valid symbol relation relationEq
    rw [masterOf_eq relationEq, ← (relationValid.addAll lengths).count_eq relationValid]
    simp [addAll, relationEq]
  unregistered symbol unknown := by
    have missing : store.relation? symbol = none := by
      simpa [Registers] using mt (registersIff symbol).mp unknown
    exact ⟨fun tuple => by simp [add, missing], fun tuples => by simp [addAll, missing]⟩
  consistent := records.firstDisagreement?_eq_none

/-- The store that is built from a list of relations and some requests, after some updates. -/
def ofUpdates (symbols : List RelationSymbol) (requests : List (RelationSymbol × Pattern))
    (config : Config) (updates : List Update) : FactStore :=
  (((StorePlan.ofSymbols symbols).requestAll requests).build config).applyAll updates

variable {symbols : List RelationSymbol} {requests : List (RelationSymbol × Pattern)}
  {config : Config} {updates : List Update}

theorem records_ofRequests (symbols : List RelationSymbol)
    (requests : List (RelationSymbol × Pattern)) (config : Config) :
    (((StorePlan.ofSymbols symbols).requestAll requests).build config).Records fun _ => [] := by
  obtain ⟨planValid, -, symbolsEq⟩ :=
    StorePlan.requestAll_spec (StorePlan.valid_ofSymbols symbols) requests
  refine StorePlan.records_build planValid ?_ config
  rw [symbolsEq, StorePlan.symbols_ofSymbols]
  exact nodup_eraseDups symbols

theorem records_ofUpdates (fits : ∀ update ∈ updates, update.Fits) :
    (ofUpdates symbols requests config updates).Records (FactStore.history updates) :=
  (records_ofRequests symbols requests config).applyAll fits

theorem registers_ofUpdates :
    (ofUpdates symbols requests config updates).Registers symbol ↔ symbol ∈ symbols := by
  have planSymbols := (StorePlan.requestAll_spec (StorePlan.valid_ofSymbols symbols) requests).2.2
  rw [registers_iff_mem, ofUpdates, symbols_applyAll, StorePlan.symbols_build, planSymbols,
    StorePlan.symbols_ofSymbols, List.mem_eraseDups]

theorem ofUpdates_eq (symbols : List RelationSymbol) (requests : List (RelationSymbol × Pattern))
    (config : Config) (updates : List Update) :
    ofUpdates symbols requests config updates =
      { ofUpdates symbols requests {} updates with
        limits := { maxArraySize := config.maxArraySize, numGuesses := config.numGuesses } } :=
  applyAll_limits (((StorePlan.ofSymbols symbols).requestAll requests).build {}) _ updates

theorem Valid.applyAll (valid : store.Valid) (fits : ∀ update ∈ updates, update.Fits) :
    (store.applyAll updates).Valid := by
  induction updates using List.reverseRecOn with
  | nil => exact valid
  | append_singleton updates update ih =>
      obtain ⟨earlier, last⟩ := List.forall_mem_append.mp fits
      rw [applyAll_concat]
      exact (ih earlier).apply (last update List.mem_cons_self)

theorem provides_applyAll (valid : store.Valid) (fits : ∀ update ∈ updates, update.Fits)
    {number : Nat} {pattern : Pattern} (provides : store.Provides symbol number pattern) :
    (store.applyAll updates).Provides symbol number pattern := by
  induction updates using List.reverseRecOn with
  | nil => exact provides
  | append_singleton updates update ih =>
      obtain ⟨earlier, last⟩ := List.forall_mem_append.mp fits
      rw [applyAll_concat]
      exact provides_apply (valid.applyAll earlier) (last update List.mem_cons_self) (ih earlier)

/-- A store was built from a plan, and it has been updated since. -/
def FilledFrom (plan : StorePlan) (store : FactStore) : Prop :=
  ∃ config updates, (∀ update ∈ updates, Update.Fits update) ∧
    store = (plan.build config).applyAll updates

section

variable {plan : StorePlan} (filled : store.FilledFrom plan)

include filled

theorem FilledFrom.valid (valid : plan.Valid) : store.Valid := by
  obtain ⟨config, updates, fits, rfl⟩ := filled
  exact (StorePlan.valid_build valid).applyAll fits

theorem FilledFrom.provides (valid : plan.Valid) {number : Nat} {pattern : Pattern}
    (requested : plan.Requests symbol number pattern) : store.Provides symbol number pattern := by
  obtain ⟨config, updates, fits, rfl⟩ := filled
  exact provides_applyAll (StorePlan.valid_build valid) fits (StorePlan.provides_build requested)

end

/-- However a store was planned and updated, it holds what has been put into it since the last
clearing, and answers accordingly. -/
theorem reflects_ofUpdates (symbols : List RelationSymbol)
    (requests : List (RelationSymbol × Pattern)) (config : Config) (updates : List Update)
    (fits : ∀ update ∈ updates, update.Fits) :
    (ofUpdates symbols requests config updates).Reflects symbols (FactStore.history updates) ∧
      ∀ symbol pattern, (symbol, pattern) ∈ requests → symbol ∈ symbols →
        pattern.length = symbol.arity →
          ∃ number, (ofUpdates symbols requests config updates).Provides symbol number pattern := by
  refine ⟨(records_ofUpdates fits).reflects fun _ => registers_ofUpdates, ?_⟩
  intro symbol pattern asked known length
  have planned : symbol ∈ (StorePlan.ofSymbols symbols).symbols := by
    rwa [StorePlan.symbols_ofSymbols, List.mem_eraseDups]
  obtain ⟨number, requested⟩ :=
    StorePlan.exists_requests (StorePlan.valid_ofSymbols symbols) asked planned length
  exact ⟨number, provides_applyAll (records_ofRequests symbols requests config).valid fits
    (StorePlan.provides_build requested)⟩

/-- Edges are put in, removed and put in again; a tuple of an unknown relation comes last. -/
def sampleUpdates : List Update :=
  let edge : RelationSymbol := ⟨"edge", 2⟩
  [.add edge [⟨1⟩, ⟨4⟩], .clearRelation edge,
    .addAll edge [[⟨1⟩, ⟨5⟩], [⟨2⟩, ⟨5⟩], [⟨1⟩, ⟨5⟩]], .add edge [⟨1⟩, ⟨3⟩], .add ⟨"ghost", 1⟩ [⟨7⟩]]

theorem reflects_ofUpdates_sample :
    (∀ update ∈ sampleUpdates, update.Fits) ∧
      FactStore.history sampleUpdates ⟨"edge", 2⟩ =
          [[⟨1⟩, ⟨5⟩], [⟨2⟩, ⟨5⟩], [⟨1⟩, ⟨5⟩], [⟨1⟩, ⟨3⟩]] ∧
        (ofUpdates [⟨"edge", 2⟩] [(⟨"edge", 2⟩, [.bound, .ignored])] {} sampleUpdates).Reflects
          [⟨"edge", 2⟩] (FactStore.history sampleUpdates) := by
  have fits : ∀ update ∈ sampleUpdates, update.Fits := by simp [sampleUpdates, Update.Fits]
  exact ⟨fits, by decide, (reflects_ofUpdates _ _ _ _ fits).1⟩

/-- The projection keeps the first edge of either source that came after the clearing. -/
example : ((ofUpdates [⟨"edge", 2⟩] [(⟨"edge", 2⟩, [.bound, .ignored])] {}
    sampleUpdates).index? ⟨"edge", 2⟩ 0).map Index.tuples = some [[⟨1⟩, ⟨5⟩], [⟨2⟩, ⟨5⟩]] := by
  decide +kernel

end FactStore

end Datalog
