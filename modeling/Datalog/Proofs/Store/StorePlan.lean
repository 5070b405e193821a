import Datalog.Proofs.Store.FactStore

/-!
# Planned stores

A plan of a store lists the patterns that have been asked for.  Later requests keep the numbers of
earlier ones, and the store that is built from a plan has the indices under these numbers.
-/

namespace Datalog

namespace StorePlan

def patterns? (plan : StorePlan) (symbol : RelationSymbol) : Option (List Pattern) :=
  (plan.patterns.find? (·.1 = symbol)).map (·.2)

/-- An index was asked for and has been given a number. -/
def Requests (plan : StorePlan) (symbol : RelationSymbol) (number : Nat) (pattern : Pattern) :
    Prop :=
  ∃ patterns, plan.patterns? symbol = some patterns ∧ patterns[number]? = some pattern

/-- The patterns of a relation have as many columns as the relation. -/
def Valid (plan : StorePlan) : Prop :=
  ∀ symbol patterns, plan.patterns? symbol = some patterns →
    ∀ pattern ∈ patterns, pattern.length = symbol.arity

/-- Requests are kept, and no relation is added. -/
structure Extends (later earlier : StorePlan) : Prop where
  requests : ∀ symbol number pattern,
    earlier.Requests symbol number pattern → later.Requests symbol number pattern
  relations : ∀ symbol, (later.patterns? symbol).isSome = (earlier.patterns? symbol).isSome

variable {plan later : StorePlan} {symbol : RelationSymbol} {number : Nat} {pattern : Pattern}

theorem Extends.refl (plan : StorePlan) : plan.Extends plan :=
  ⟨fun _ _ _ requests => requests, fun _ => rfl⟩

theorem Extends.trans {first second third : StorePlan} (right : third.Extends second)
    (left : second.Extends first) : third.Extends first :=
  ⟨fun symbol number pattern requests =>
    right.requests symbol number pattern (left.requests symbol number pattern requests),
    fun symbol => (right.relations symbol).trans (left.relations symbol)⟩

/-! ## Requests -/

theorem patterns?_ofSymbols (symbols : List RelationSymbol) (symbol : RelationSymbol) :
    (ofSymbols symbols).patterns? symbol = if symbol ∈ symbols then some [] else none := by
  have unrequested : ∀ others : List RelationSymbol,
      ((others.map fun other => (other, ([] : List Pattern))).find? (·.1 = symbol)).map (·.2) =
        if symbol ∈ others then some [] else none := by
    intro others
    induction others with
    | nil => rfl
    | cons other others ih =>
        by_cases here : other = symbol
        · simp [here]
        · simpa [here, Ne.symm here] using ih
  simp only [patterns?, ofSymbols, unrequested, List.mem_eraseDups]

theorem valid_ofSymbols (symbols : List RelationSymbol) : (ofSymbols symbols).Valid := by
  intro symbol patterns found
  rw [patterns?_ofSymbols] at found
  split at found
  · cases found
    simp
  · simp at found

/-- The plan that results from asking for one more index. -/
theorem patterns?_extended (patterns : List Pattern) (symbol other : RelationSymbol)
    (registered : (plan.patterns? symbol).isSome = true) :
    patterns? { patterns := plan.patterns.map fun entry =>
        if entry.1 = symbol then (symbol, patterns) else entry } other =
      if other = symbol then some patterns else plan.patterns? other := by
  obtain ⟨entries⟩ := plan
  simp only [patterns?] at registered ⊢
  by_cases here : other = symbol
  · subst here
    rw [if_pos rfl]
    induction entries with
    | nil => simp at registered
    | cons entry entries ih =>
        by_cases found : entry.1 = other
        · simp [found]
        · simpa [found] using ih (by simpa [found] using registered)
  · rw [if_neg here]
    have apart : ¬ symbol = other := fun same => here same.symm
    clear registered
    induction entries with
    | nil => rfl
    | cons entry entries ih =>
        by_cases same : entry.1 = symbol
        · simpa [same, apart] using ih
        · by_cases found : entry.1 = other
          · simp [found, here]
          · simpa [same, found] using ih

/-- A request keeps all earlier ones and is answered with the number of the index. -/
theorem request_ok (valid : plan.Valid)
    (requested : plan.request symbol pattern = .ok (number, later)) :
    later.Valid ∧ later.Extends plan ∧ pattern.length = symbol.arity ∧
      later.Requests symbol number pattern := by
  unfold request at requested
  split at requested
  · cases requested
  · next entry patterns found =>
      have patternsEq : plan.patterns? symbol = some patterns := by simp [patterns?, found]
      split at requested
      · cases requested
      · next lengthEq =>
          have length : pattern.length = symbol.arity := by simpa using lengthEq
          split at requested
          · next place placed =>
              cases requested
              obtain ⟨inside, isPattern, -⟩ := List.findIdx?_eq_some_iff_getElem.mp placed
              refine ⟨valid, .refl _, length, patterns, patternsEq, ?_⟩
              rw [List.getElem?_eq_getElem inside]
              simpa using isPattern
          · next absent =>
              cases requested
              -- A new pattern is put behind the others, so that no index gets another number.
              have registered : (plan.patterns? symbol).isSome = true := by simp [patternsEq]
              have lookup := fun other =>
                patterns?_extended (patterns ++ [pattern]) symbol other registered
              refine ⟨?_, ⟨?_, ?_⟩, length, patterns ++ [pattern], ?_, by simp⟩
              · intro other listed found
                rw [lookup] at found
                split at found
                · next same =>
                    cases found
                    subst same
                    intro old member
                    rcases List.mem_append.mp member with member | member
                    · exact valid other patterns patternsEq old member
                    · obtain rfl := List.mem_singleton.mp member
                      exact length
                · exact valid other listed found
              · rintro other place old ⟨listed, listedEq, atPlace⟩
                by_cases same : other = symbol
                · subst same
                  obtain rfl := Option.some.inj (listedEq.symm.trans patternsEq)
                  have inside := (List.getElem?_eq_some_iff.mp atPlace).1
                  refine ⟨_, (lookup other).trans (if_pos rfl), ?_⟩
                  rwa [List.getElem?_append_left inside]
                · exact ⟨listed, (lookup other).trans ((if_neg same).trans listedEq), atPlace⟩
              · intro other
                rw [lookup]
                split
                · next same => simp [same, patternsEq]
                · rfl
              · exact (lookup symbol).trans (if_pos rfl)

/-! ## Built stores -/

variable {config : Config}

theorem relation?_build (plan : StorePlan) (config : Config) (symbol : RelationSymbol) :
    (plan.build config).relation? symbol =
      (plan.patterns? symbol).map (Relation.ofPatterns symbol.arity) := by
  obtain ⟨entries⟩ := plan
  simp only [FactStore.relation?, build, patterns?]
  induction entries with
  | nil => rfl
  | cons entry entries ih =>
      by_cases found : entry.1 = symbol
      · simp [found]
      · simpa [found] using ih

theorem valid_build (valid : plan.Valid) : (plan.build config).Valid := by
  intro symbol relation found
  rw [relation?_build] at found
  obtain ⟨patterns, patternsEq, rfl⟩ := Option.map_eq_some_iff.mp found
  exact (Relation.valid_ofPatterns (valid symbol patterns patternsEq)).1

theorem not_holds_build (valid : plan.Valid) {tuple : Tuple} :
    ¬ (plan.build config).Holds symbol tuple := by
  rintro ⟨relation, found, member⟩
  rw [relation?_build] at found
  obtain ⟨patterns, patternsEq, rfl⟩ := Option.map_eq_some_iff.mp found
  simp [(Relation.valid_ofPatterns (valid symbol patterns patternsEq)).2] at member

theorem registers_build :
    (plan.build config).Registers symbol ↔ (plan.patterns? symbol).isSome = true := by
  simp [FactStore.Registers, relation?_build]

theorem provides_build (requests : plan.Requests symbol number pattern) :
    (plan.build config).Provides symbol number pattern := by
  obtain ⟨patterns, patternsEq, atNumber⟩ := requests
  have inside := (List.getElem?_eq_some_iff.mp atNumber).1
  refine ⟨{ pattern }, ?_, rfl⟩
  simp only [FactStore.index?, relation?_build, patternsEq, Option.map_some, Option.bind_some,
    Relation.ofPatterns]
  split
  · simp [atNumber]
  · rw [List.getElem?_append_left (by simpa using inside)]
    simp [atNumber]

end StorePlan

end Datalog
