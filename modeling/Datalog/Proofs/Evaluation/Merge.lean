import Datalog.Proofs.Evaluation.Pass
import Mathlib.Data.Set.Card

/-!
# Merging and counting

Merging one store into another adds the tuples of some relations and counts those that are new.  As
equal values have equal numbers, the number of tuples of a store is the number of facts that they
denote.
-/

namespace Datalog

variable {symbols : List RelationSymbol} {terms : TermStore} {model : Model}

namespace FactStore

variable {store source target : FactStore}

/-- A store that can be looked up and added to. -/
structure Usable (store : FactStore) : Prop where
  valid : store.Valid
  bounded : store.limits.Bounded

theorem Usable.clear (usable : store.Usable) : store.clear.Usable :=
  ⟨usable.valid.clear, usable.bounded⟩

/-! ## Merging -/

/-- What merging a store into another one makes of it. -/
structure Merged (source target : FactStore) (symbols counted : List RelationSymbol)
    (result : Nat × FactStore) : Prop where
  valid : result.2.Valid
  grows : result.2.Grows target
  holds_iff : ∀ symbol tuple, result.2.Holds symbol tuple ↔
    target.Holds symbol tuple ∨
      symbol ∈ symbols ∧ source.Holds symbol tuple ∧ target.Registers symbol
  total : result.2.total counted = target.total counted + result.1

theorem merged_mergeInto (sourceUsable : source.Usable) (targetValid : target.Valid)
    {counted : List RelationSymbol} (distinct : counted.Nodup)
    (inside : ∀ symbol ∈ symbols, symbol ∈ counted) :
    Merged source target symbols counted (FixpointContext.mergeInto source symbols target) := by
  induction symbols generalizing target with
  | nil => exact ⟨targetValid, .refl _, by simp [FixpointContext.mergeInto], rfl⟩
  | cons symbol symbols ih =>
      have lengths : ∀ tuple ∈ source.tuplesOf symbol, tuple.length = symbol.arity := by
        intro tuple member
        exact sourceUsable.valid.length_of_holds ((mem_tuplesOf sourceUsable.bounded).mp member)
      have added := targetValid.addAll lengths
      have addedTotal := total_of_added added distinct (inside symbol List.mem_cons_self)
      have merged := ih added.valid fun other member => inside other (List.mem_cons_of_mem _ member)
      unfold FixpointContext.mergeInto
      generalize target.addAll symbol (source.tuplesOf symbol) = first at added addedTotal merged
      obtain ⟨count, middle⟩ := first
      dsimp only at added addedTotal merged ⊢
      have total := merged.total
      refine ⟨merged.valid, merged.grows.trans added.grows, fun other tuple => ?_, ?_⟩
      · rw [merged.holds_iff, added.holds_iff, added.grows.registers_iff,
          mem_tuplesOf sourceUsable.bounded]
        constructor
        · rintro ((before | ⟨rfl, holds, registers⟩) | ⟨member, holds, registers⟩)
          · exact .inl before
          · exact .inr ⟨List.mem_cons_self, holds, registers⟩
          · exact .inr ⟨List.mem_cons_of_mem _ member, holds, registers⟩
        · rintro (before | ⟨member, holds, registers⟩)
          · exact .inl (.inl before)
          · rcases List.mem_cons.mp member with rfl | member
            · exact .inl (.inr ⟨rfl, holds, registers⟩)
            · exact .inr ⟨member, holds, registers⟩
      · simp only at total ⊢
        omega

theorem total_eq_zero (symbols : List RelationSymbol) (bounded : store.limits.Bounded)
    (empty : ∀ symbol tuple, ¬ store.Holds symbol tuple) : store.total symbols = 0 := by
  induction symbols with
  | nil => rfl
  | cons symbol symbols ih =>
      have none : store.tuplesOf symbol = [] := List.eq_nil_iff_forall_not_mem.mpr
        fun tuple member => empty symbol tuple ((mem_tuplesOf bounded).mp member)
      simp only [total, List.map_cons, List.sum_cons] at ih ⊢
      rw [countDistinct_eq bounded, none, ih]
      rfl

/-! ## Counting facts -/

/-- The facts of one relation are as many as its tuples. -/
theorem ncard_facts_of_symbol (usable : store.Usable) (distinct : terms.Distinct)
    (within : store.Within terms model) (symbol : RelationSymbol) :
    ({fact ∈ store.model terms | fact.1 = symbol} : Model).Finite ∧
      ({fact ∈ store.model terms | fact.1 = symbol} : Model).ncard =
        store.countDistinct symbol := by
  classical
  let tuples : Set Tuple := ((store.tuplesOf symbol).toFinset : Set Tuple)
  have memTuples : ∀ tuple, tuple ∈ tuples ↔ store.Holds symbol tuple := by
    intro tuple
    simp [tuples, mem_tuplesOf usable.bounded]
  have denoting : ∀ tuple ∈ tuples, ∃ values, terms.DenotesAll tuple values := by
    intro tuple member
    obtain ⟨values, denotes, -⟩ := within symbol tuple ((memTuples tuple).mp member)
    exact ⟨values, denotes⟩
  let factOf : Tuple → GroundFact := fun tuple =>
    (symbol, if denotes : ∃ values, terms.DenotesAll tuple values then denotes.choose else [])
  have factOf_denotes : ∀ tuple ∈ tuples, terms.DenotesAll tuple (factOf tuple).2 := by
    intro tuple member
    have denotes := denoting tuple member
    simp only [factOf, dif_pos denotes]
    exact denotes.choose_spec
  have image : ({fact ∈ store.model terms | fact.1 = symbol} : Model) = factOf '' tuples := by
    ext fact
    constructor
    · rintro ⟨⟨tuple, holds, denotes⟩, rfl⟩
      have member := (memTuples tuple).mpr holds
      exact ⟨tuple, member, Prod.ext rfl ((factOf_denotes tuple member).unique denotes)⟩
    · rintro ⟨tuple, member, rfl⟩
      exact ⟨⟨tuple, (memTuples tuple).mp member, factOf_denotes tuple member⟩, rfl⟩
  have injective : Set.InjOn factOf tuples := by
    intro first firstMember second secondMember same
    have denotes := factOf_denotes first firstMember
    rw [same] at denotes
    exact denotes.injective distinct (factOf_denotes second secondMember)
  rw [image, injective.ncard_image]
  refine ⟨(Finset.finite_toSet _).image factOf, ?_⟩
  rw [Set.ncard_coe_finset, List.toFinset_card_of_nodup (usable.valid.nodup_tuplesOf usable.bounded),
    countDistinct_eq usable.bounded]

/-- The facts of some relations are as many as their tuples. -/
theorem ncard_facts (usable : store.Usable) (distinct : terms.Distinct)
    (within : store.Within terms model) (distinctSymbols : symbols.Nodup) :
    ({fact ∈ store.model terms | fact.1 ∈ symbols} : Model).Finite ∧
      ({fact ∈ store.model terms | fact.1 ∈ symbols} : Model).ncard = store.total symbols := by
  induction symbols with
  | nil =>
      have : ({fact ∈ store.model terms | fact.1 ∈ ([] : List RelationSymbol)} : Model) = ∅ := by
        ext fact
        simp
      rw [this]
      exact ⟨Set.finite_empty, Set.ncard_empty _⟩
  | cons symbol symbols ih =>
      obtain ⟨absent, distinctRest⟩ := List.nodup_cons.mp distinctSymbols
      obtain ⟨restFinite, restCount⟩ := ih distinctRest
      obtain ⟨firstFinite, firstCount⟩ :=
        ncard_facts_of_symbol usable distinct within symbol
      have union : ({fact ∈ store.model terms | fact.1 ∈ symbol :: symbols} : Model) =
          {fact ∈ store.model terms | fact.1 = symbol} ∪
            {fact ∈ store.model terms | fact.1 ∈ symbols} := by
        ext fact
        simp only [Set.mem_ofPred_eq, List.mem_cons, Set.mem_union]
        tauto
      have disjoint : Disjoint ({fact ∈ store.model terms | fact.1 = symbol} : Model)
          {fact ∈ store.model terms | fact.1 ∈ symbols} := by
        rw [Set.disjoint_left]
        rintro fact ⟨-, here⟩ ⟨-, there⟩
        exact absent (here ▸ there)
      rw [union, Set.ncard_union_eq disjoint firstFinite restFinite, firstCount, restCount]
      exact ⟨firstFinite.union restFinite, rfl⟩

theorem total_congr {later : FactStore} {laterTerms : TermStore} (usable : store.Usable)
    (distinct : terms.Distinct) (showsBefore : store.Shows terms model) (laterUsable : later.Usable)
    (laterDistinct : laterTerms.Distinct) (showsAfter : later.Shows laterTerms model)
    (distinctSymbols : symbols.Nodup) : later.total symbols = store.total symbols := by
  have count := (ncard_facts usable distinct showsBefore.within distinctSymbols).2
  have laterCount := (ncard_facts laterUsable laterDistinct showsAfter.within distinctSymbols).2
  rw [showsBefore.model_eq] at count
  rw [showsAfter.model_eq] at laterCount
  rw [← count, ← laterCount]

/-- When facts of some relations are added, the relations grow by the facts that are new. -/
theorem total_add {later : FactStore} {laterTerms : TermStore} {added : Model}
    (usable : store.Usable) (distinct : terms.Distinct) (showsBefore : store.Shows terms model)
    (laterUsable : later.Usable) (laterDistinct : laterTerms.Distinct)
    (showsAfter : later.Shows laterTerms (model ∪ added)) (distinctSymbols : symbols.Nodup)
    (inside : ∀ fact ∈ added, fact.1 ∈ symbols) :
    later.total symbols = store.total symbols + (added \ model).ncard := by
  obtain ⟨finite, count⟩ := ncard_facts usable distinct showsBefore.within distinctSymbols
  obtain ⟨laterFinite, laterCount⟩ :=
    ncard_facts laterUsable laterDistinct showsAfter.within distinctSymbols
  rw [showsBefore.model_eq] at finite count
  rw [showsAfter.model_eq] at laterFinite laterCount
  have union : ({fact ∈ model ∪ added | fact.1 ∈ symbols} : Model) =
      {fact ∈ model | fact.1 ∈ symbols} ∪ (added \ model) := by
    ext fact
    have := inside fact
    simp only [Set.mem_ofPred_eq, Set.mem_union, Set.mem_sdiff]
    tauto
  have disjoint : Disjoint ({fact ∈ model | fact.1 ∈ symbols} : Model) (added \ model) := by
    rw [Set.disjoint_left]
    rintro fact ⟨known, -⟩ ⟨-, unknown⟩
    exact unknown known
  have newFinite : (added \ model).Finite := laterFinite.subset (union ▸ Set.subset_union_right)
  rw [union, Set.ncard_union_eq disjoint finite newFinite, count] at laterCount
  exact laterCount.symm

end FactStore

end Datalog
