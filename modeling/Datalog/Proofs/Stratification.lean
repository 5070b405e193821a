import Datalog.Proofs.Digraph.Condensation
import Datalog.Proofs.Program
import Datalog.Proofs.Semantics.PerfectModel
import Datalog.Stratum

/-!
# The strata of a program

The components of the dependencies, in an order that every dependency respects, group the relations
that rules define.  If no group negates a relation of its own, then evaluating the groups in this
order computes the perfect model.
-/

namespace Datalog

theorem nodup_eraseDups {α : Type} [DecidableEq α] (items : List α) : items.eraseDups.Nodup := by
  induction size : items.length using Nat.strong_induction_on generalizing items with
  | _ bound ih =>
      cases items with
      | nil => simp
      | cons item items =>
          rw [List.eraseDups_cons]
          have shorter : (items.filter fun other => !other == item).length < bound := by
            rw [← size, List.length_cons]
            exact Nat.lt_succ_of_le (List.length_filter_le _ _)
          exact List.nodup_cons.mpr ⟨by simp, ih _ shorter _ rfl⟩

namespace RelationSymbol

theorem nodup_sortDistinct (symbols : List RelationSymbol) : (sortDistinct symbols).Nodup :=
  (List.mergeSort_perm _ _).nodup_iff.mpr (nodup_eraseDups symbols)

theorem mem_sortDistinct {symbols : List RelationSymbol} {symbol : RelationSymbol} :
    symbol ∈ sortDistinct symbols ↔ symbol ∈ symbols := by
  rw [sortDistinct, List.mem_mergeSort, List.mem_eraseDups]

end RelationSymbol

/-- No relation belongs to two strata. -/
def SeparateStrata (strata : List Stratum) : Prop :=
  ∀ first ∈ strata, ∀ second ∈ strata, ∀ symbol ∈ first.symbols, symbol ∈ second.symbols →
    first = second

namespace Program

variable {program : Program}

/-- Strata that rules of a program can be evaluated in: each lists relations that rules define, none
of them twice, and says whether the rules negate within it. -/
structure Layers (program : Program) (strata : List Stratum) : Prop where
  separate : SeparateStrata strata
  nodup : ∀ stratum ∈ strata, stratum.symbols.Nodup
  derived : ∀ stratum ∈ strata, ∀ symbol ∈ stratum.symbols, symbol ∈ program.ruleSymbols
  negation : ∀ stratum ∈ strata,
    stratum.recursiveNegation = program.negatesWithin stratum.symbols

/-- Strata that respect the dependencies of a program, however coarse: they list the relations that
rules define, each in exactly one of them, a rule reads relations of the same or earlier strata and
negates relations of earlier strata only, and none is marked as negating within itself. -/
structure Admits (program : Program) (strata : List Stratum) : Prop where
  grouping : program.IsStratification (strata.map (·.symbols))
  nodup : ∀ stratum ∈ strata, stratum.symbols.Nodup
  derived : ∀ stratum ∈ strata, ∀ symbol ∈ stratum.symbols, symbol ∈ program.ruleSymbols
  unflagged : ∀ stratum ∈ strata, stratum.recursiveNegation = false

/-! ## Dependencies -/

theorem mem_bodyAtoms {rule : Rule} {atom : Atom} :
    atom ∈ rule.bodyAtoms ↔ .predicate atom ∈ rule.body := by
  unfold Rule.bodyAtoms
  rw [List.mem_filterMap]
  constructor
  · rintro ⟨literal, inBody, isAtom⟩
    cases literal with
    | unification => cases isAtom
    | predicate other =>
        obtain rfl := Option.some.inj isAtom
        exact inBody
  · intro inBody
    exact ⟨_, inBody, rfl⟩

theorem mem_dependencies {first second : RelationSymbol} :
    (first, second) ∈ program.dependencies.edges ↔ ∃ rule ∈ program.rules, ∃ atom,
      .predicate atom ∈ rule.body ∧ atom.symbol = first ∧ first ∈ program.ruleSymbols ∧
        rule.head.symbol = second := by
  simp only [dependencies, List.mem_flatMap, List.mem_map, List.mem_filter, mem_bodyAtoms,
    List.contains_iff_mem, Prod.mk.injEq]
  constructor
  · rintro ⟨rule, inProgram, atom, ⟨inBody, derived⟩, rfl, rfl⟩
    exact ⟨rule, inProgram, atom, inBody, rfl, derived, rfl⟩
  · rintro ⟨rule, inProgram, atom, inBody, rfl, derived, rfl⟩
    exact ⟨rule, inProgram, atom, ⟨inBody, derived⟩, rfl, rfl⟩

theorem closed_dependencies (wellFormed : program.WellFormed) : program.dependencies.Closed := by
  rintro ⟨first, second⟩ edge
  obtain ⟨rule, inProgram, atom, inBody, rfl, derived, rfl⟩ := mem_dependencies.mp edge
  refine ⟨derived, mem_ruleSymbols.mpr ⟨(wellFormed.heads rule inProgram).declared, ?_⟩⟩
  exact ⟨rule, inProgram, rfl⟩

theorem negatesWithin_eq_true {symbols : List RelationSymbol} :
    program.negatesWithin symbols = true ↔ ∃ rule ∈ program.rulesOf symbols, ∃ atom,
      .predicate atom ∈ rule.body ∧ atom.negated = true ∧ atom.symbol ∈ symbols := by
  simp only [negatesWithin, List.any_eq_true, Bool.and_eq_true, List.contains_iff_mem,
    mem_bodyAtoms, mem_rulesOf, and_assoc]

theorem negatesWithin_congr {symbols others : List RelationSymbol}
    (same : ∀ symbol, symbol ∈ symbols ↔ symbol ∈ others) :
    program.negatesWithin symbols = program.negatesWithin others := by
  rw [Bool.eq_iff_iff, negatesWithin_eq_true, negatesWithin_eq_true]
  simp only [mem_rulesOf, same]

/-- Rules that do not negate within a group negate relations of other groups only. -/
theorem not_mem_of_negated {symbols : List RelationSymbol}
    (outside : program.negatesWithin symbols = false) {rule : Rule}
    (ruleMember : rule ∈ program.rulesOf symbols) {atom : Atom}
    (inBody : .predicate atom ∈ rule.body) (negated : atom.negated = true) :
    atom.symbol ∉ symbols := by
  intro inSymbols
  have within := negatesWithin_eq_true.mpr ⟨rule, ruleMember, atom, inBody, negated, inSymbols⟩
  rw [outside] at within
  cases within

theorem negatesOutside_rulesOf {symbols : List RelationSymbol}
    (outside : program.negatesWithin symbols = false) :
    NegatesOutside (program.rulesOf symbols) := by
  intro rule ruleMember atom inBody negated other otherMember same
  have inGroup := (mem_rulesOf.mp otherMember).2
  exact not_mem_of_negated outside ruleMember inBody negated (same ▸ inGroup)

/-! ## Strata that respect the dependencies -/

/-- Groups of a stratification negate no relation of their own. -/
theorem IsStratification.negatesWithin_eq_false {groups : List (List RelationSymbol)}
    (stratified : program.IsStratification groups) {group : List RelationSymbol}
    (member : group ∈ groups) (derived : ∀ symbol ∈ group, symbol ∈ program.ruleSymbols) :
    program.negatesWithin group = false := by
  by_contra within
  obtain ⟨rule, ruleMember, atom, inBody, negated, inGroup⟩ :=
    negatesWithin_eq_true.mp (Bool.eq_true_of_not_eq_false within)
  obtain ⟨inProgram, headInGroup⟩ := mem_rulesOf.mp ruleMember
  obtain ⟨before, after, split⟩ := List.append_of_mem member
  have isDerived := (mem_ruleSymbols.mp (derived atom.symbol inGroup)).2
  rcases stratified.respects before group after split rule inProgram headInGroup atom inBody
    isDerived with early | ⟨positive, -⟩
  · obtain ⟨first, firstMember, inFirst⟩ := List.mem_flatten.mp early
    have disjoint := stratified.disjoint
    rw [split, List.pairwise_append] at disjoint
    exact disjoint.2.2 first firstMember group List.mem_cons_self inFirst inGroup
  · simp [negated] at positive

theorem separate_of_pairwise {strata : List Stratum}
    (disjoint : (strata.map (·.symbols)).Pairwise List.Disjoint) : SeparateStrata strata := by
  rw [List.pairwise_map] at disjoint
  intro first firstMember second secondMember symbol inFirst inSecond
  by_contra different
  have symmetric : Std.Symm fun first second : Stratum => first.symbols.Disjoint second.symbols :=
    ⟨fun _ _ apart _ inFirst inSecond => apart inSecond inFirst⟩
  exact disjoint.forall firstMember secondMember different inFirst inSecond

theorem Admits.layers {strata : List Stratum} (admits : program.Admits strata) :
    program.Layers strata where
  separate := separate_of_pairwise admits.grouping.disjoint
  nodup := admits.nodup
  derived := admits.derived
  negation stratum member := by
    rw [admits.unflagged stratum member]
    exact (admits.grouping.negatesWithin_eq_false (List.mem_map_of_mem member)
      (admits.derived stratum member)).symm

/-! ## Strata -/

theorem mem_stratify {stratum : Stratum} :
    stratum ∈ program.stratify ↔ ∃ rank, ∃ bound : rank < program.dependencies.componentOrder.length,
      .ofSymbols rank program.dependencies.componentOrder[rank]
        (program.negatesWithin program.dependencies.componentOrder[rank]) = stratum :=
  List.mem_mapIdx

theorem layers_stratify (wellFormed : program.WellFormed) : program.Layers program.stratify := by
  have closed := closed_dependencies wellFormed
  have perm := Digraph.componentOrder_perm closed
  have isComponent : ∀ {rank : Nat} (bound : rank < program.dependencies.componentOrder.length),
      program.dependencies.componentOrder[rank] ∈ program.dependencies.components := fun bound =>
    perm.mem_iff.mp (List.getElem_mem bound)
  constructor
  · intro first firstMember second secondMember symbol inFirst inSecond
    obtain ⟨rank, bound, rfl⟩ := mem_stratify.mp firstMember
    obtain ⟨rank', bound', rfl⟩ := mem_stratify.mp secondMember
    have same := Digraph.eq_of_mem_components closed (isComponent bound) (isComponent bound')
      (RelationSymbol.mem_sortDistinct.mp inFirst) (RelationSymbol.mem_sortDistinct.mp inSecond)
    have nodup := perm.nodup_iff.mpr (Digraph.nodup_components closed)
    obtain rfl := (nodup.getElem_inj_iff).mp same
    rfl
  · intro stratum member
    obtain ⟨rank, bound, rfl⟩ := mem_stratify.mp member
    exact RelationSymbol.nodup_sortDistinct _
  · intro stratum member symbol inStratum
    obtain ⟨rank, bound, rfl⟩ := mem_stratify.mp member
    have component := Digraph.component_of_mem closed (isComponent bound)
    exact component.inside symbol (RelationSymbol.mem_sortDistinct.mp inStratum)
  · intro stratum member
    obtain ⟨rank, bound, rfl⟩ := mem_stratify.mp member
    exact negatesWithin_congr fun _ => RelationSymbol.mem_sortDistinct.symm

theorem map_symbols_stratify :
    program.stratify.map (·.symbols) =
      program.dependencies.componentOrder.map RelationSymbol.sortDistinct := by
  refine List.ext_getElem (by simp [stratify]) fun rank _ _ => ?_
  simp [stratify, Stratum.ofSymbols]

/-- The strata of a program are a grouping in an order of evaluation, unless one of them negates
within itself. -/
theorem isStratification_stratify (wellFormed : program.WellFormed)
    (outside : ∀ stratum ∈ program.stratify, stratum.recursiveNegation = false) :
    program.IsStratification (program.stratify.map (·.symbols)) := by
  have closed := closed_dependencies wellFormed
  have perm := Digraph.componentOrder_perm closed
  constructor
  · intro rule inProgram
    have derived : rule.head.symbol ∈ program.dependencies.nodes :=
      mem_ruleSymbols.mpr ⟨(wellFormed.heads rule inProgram).declared, rule, inProgram, rfl⟩
    obtain ⟨isPart, inPart⟩ := Digraph.componentOf_mem closed derived
    rw [map_symbols_stratify]
    exact ⟨_, List.mem_map_of_mem (perm.mem_iff.mpr isPart),
      RelationSymbol.mem_sortDistinct.mpr inPart⟩
  · rw [map_symbols_stratify, List.pairwise_map]
    refine (Digraph.pairwise_componentOrder closed).imp fun disjoint symbol left right => ?_
    exact disjoint (RelationSymbol.mem_sortDistinct.mp left) (RelationSymbol.mem_sortDistinct.mp right)
  · intro before group after split rule inProgram inGroup atom inBody derived
    have ruleMember := mem_rulesOf.mpr ⟨inProgram, inGroup⟩
    have groupMember : group ∈ program.stratify.map (·.symbols) := by simp [split]
    obtain ⟨stratum, stratumMember, rfl⟩ := List.mem_map.mp groupMember
    have noNegation := outside stratum stratumMember
    rw [(layers_stratify wellFormed).negation stratum stratumMember] at noNegation
    rw [map_symbols_stratify] at split
    obtain ⟨parts, others, orderEq, rfl, othersEq⟩ := List.map_eq_append_iff.mp split
    obtain ⟨part, rest, rfl, partEq, rfl⟩ := List.map_eq_cons_iff.mp othersEq
    have isMember : ∀ symbol, symbol ∈ part ↔ symbol ∈ stratum.symbols := fun symbol => by
      rw [← partEq, RelationSymbol.mem_sortDistinct]
    have edge : (atom.symbol, rule.head.symbol) ∈ program.dependencies.edges := by
      obtain ⟨other, otherMember, headEq⟩ := derived
      have declared := (wellFormed.bodies rule inProgram atom inBody).declared
      exact mem_dependencies.mpr ⟨rule, inProgram, atom, inBody, rfl,
        mem_ruleSymbols.mpr ⟨declared, other, otherMember, headEq⟩, rfl⟩
    -- An edge leads from an earlier part or stays in one, and there nothing is negated.
    rcases Digraph.componentOrder_respects closed orderEq edge ((isMember _).mpr inGroup) with
      early | same
    · obtain ⟨earlier, earlierMember, inEarlier⟩ := List.mem_flatten.mp early
      exact .inl (List.mem_flatten.mpr
        ⟨_, List.mem_map_of_mem earlierMember, RelationSymbol.mem_sortDistinct.mpr inEarlier⟩)
    · have inStratum := (isMember _).mp same
      refine .inr ⟨?_, inStratum⟩
      by_contra negated
      exact not_mem_of_negated noNegation ruleMember inBody (by simpa using negated) inStratum

/-! ## What the strata are -/

/-- Of two relations that rules define, the first occurs in the body of a rule for the second. -/
def Feeds (program : Program) (first second : RelationSymbol) : Prop :=
  program.IsDerived first ∧ ∃ rule ∈ program.rules, rule.head.symbol = second ∧
    ∃ atom, .predicate atom ∈ rule.body ∧ atom.symbol = first

/-- Strata that partition the relations that rules define into classes of mutually dependent ones, in
an order that all dependencies respect. -/
structure Stratified (program : Program) (strata : List Stratum) : Prop where
  rank_eq : ∀ (position : Nat) (stratum : Stratum), strata[position]? = some stratum →
    stratum.rank = position
  nonempty : ∀ stratum ∈ strata, stratum.symbols ≠ []
  nodup : ∀ stratum ∈ strata, stratum.symbols.Nodup
  covers : ∀ symbol, symbol ∈ program.ruleSymbols ↔ ∃ stratum ∈ strata, symbol ∈ stratum.symbols
  disjoint : strata.Pairwise fun first second => first.symbols.Disjoint second.symbols
  together : ∀ stratum ∈ strata, ∀ first ∈ stratum.symbols, ∀ second,
    second ∈ program.ruleSymbols → (second ∈ stratum.symbols ↔ first = second ∨
      Relation.TransGen program.Feeds first second ∧ Relation.TransGen program.Feeds second first)
  respects : ∀ rule ∈ program.rules, ∀ atom, .predicate atom ∈ rule.body →
    program.IsDerived atom.symbol → ∀ (earlier later : Nat) (read derived : Stratum),
      strata[earlier]? = some read → atom.symbol ∈ read.symbols →
        strata[later]? = some derived → rule.head.symbol ∈ derived.symbols → earlier ≤ later
  negation : ∀ stratum ∈ strata, stratum.recursiveNegation = true ↔
    ∃ rule ∈ program.rules, rule.head.symbol ∈ stratum.symbols ∧
      ∃ atom, .predicate atom ∈ rule.body ∧ atom.negated = true ∧ atom.symbol ∈ stratum.symbols
  cycle : (∃ stratum ∈ strata, stratum.recursiveNegation = true) ↔
    ∃ rule ∈ program.rules, ∃ atom, .predicate atom ∈ rule.body ∧ atom.negated = true ∧
      program.IsDerived atom.symbol ∧
        Relation.ReflTransGen program.Feeds rule.head.symbol atom.symbol

theorem feeds_iff_edge (wellFormed : program.WellFormed) {first second : RelationSymbol} :
    program.Feeds first second ↔ (first, second) ∈ program.dependencies.edges := by
  rw [mem_dependencies]
  constructor
  · rintro ⟨⟨other, otherMember, headEq⟩, rule, inProgram, rfl, atom, inBody, rfl⟩
    have declared := (wellFormed.bodies rule inProgram atom inBody).declared
    exact ⟨rule, inProgram, atom, inBody, rfl,
      mem_ruleSymbols.mpr ⟨declared, other, otherMember, headEq⟩, rfl⟩
  · rintro ⟨rule, inProgram, atom, inBody, rfl, derived, rfl⟩
    exact ⟨(mem_ruleSymbols.mp derived).2, rule, inProgram, rfl, atom, inBody, rfl⟩

/-- Dependencies lead from one relation to another as they feed each other. -/
theorem leads_iff_reflTransGen (wellFormed : program.WellFormed) {first second : RelationSymbol} :
    program.dependencies.Leads first second ↔
      Relation.ReflTransGen program.Feeds first second := by
  constructor
  · intro leads
    induction leads with
    | refl => exact .refl
    | step _ edge _ ih =>
        exact .head ((feeds_iff_edge wellFormed).mpr (Digraph.mem_successors.mp edge)) ih
  · intro leads
    induction leads using Relation.ReflTransGen.head_induction_on with
    | refl => exact .refl id
    | head feeds _ ih =>
        exact .step id (Digraph.mem_successors.mpr ((feeds_iff_edge wellFormed).mp feeds)) ih

theorem sameComponent_iff (wellFormed : program.WellFormed) {first second : RelationSymbol} :
    program.dependencies.SameComponent first second ↔ first = second ∨
      Relation.TransGen program.Feeds first second ∧
        Relation.TransGen program.Feeds second first := by
  unfold Digraph.SameComponent
  rw [leads_iff_reflTransGen wellFormed, leads_iff_reflTransGen wellFormed,
    Relation.reflTransGen_iff_eq_or_transGen, Relation.reflTransGen_iff_eq_or_transGen]
  constructor
  · rintro ⟨rfl | forth, same | back⟩
    · exact .inl rfl
    · exact .inl rfl
    · exact .inl same
    · exact .inr ⟨forth, back⟩
  · rintro (rfl | ⟨forth, back⟩)
    · exact ⟨.inl rfl, .inl rfl⟩
    · exact ⟨.inr forth, .inr back⟩

/-- A stratum consists of the relations of a component of the dependencies. -/
theorem exists_component {stratum : Stratum} (wellFormed : program.WellFormed)
    (member : stratum ∈ program.stratify) :
    ∃ part, program.dependencies.IsComponent part ∧
      ∀ symbol, symbol ∈ stratum.symbols ↔ symbol ∈ part := by
  have closed := closed_dependencies wellFormed
  obtain ⟨rank, bound, rfl⟩ := mem_stratify.mp member
  have isPart := (Digraph.componentOrder_perm closed).mem_iff.mp (List.getElem_mem bound)
  exact ⟨_, Digraph.component_of_mem closed isPart, fun _ => RelationSymbol.mem_sortDistinct⟩

theorem mem_stratum_iff {stratum : Stratum} (wellFormed : program.WellFormed)
    (member : stratum ∈ program.stratify) {first second : RelationSymbol}
    (inStratum : first ∈ stratum.symbols) :
    second ∈ stratum.symbols ↔ program.dependencies.SameComponent first second := by
  obtain ⟨part, component, mem_iff⟩ := exists_component wellFormed member
  rw [mem_iff] at inStratum ⊢
  exact ⟨component.sameComponent inStratum, component.mem_of_sameComponent inStratum⟩

theorem exists_stratum (wellFormed : program.WellFormed) {symbol : RelationSymbol}
    (derived : symbol ∈ program.ruleSymbols) :
    ∃ stratum ∈ program.stratify, symbol ∈ stratum.symbols := by
  have closed := closed_dependencies wellFormed
  obtain ⟨isPart, inPart⟩ := Digraph.componentOf_mem closed derived
  have inOrder := (Digraph.componentOrder_perm closed).mem_iff.mpr isPart
  obtain ⟨rank, bound, atRank⟩ := List.getElem_of_mem inOrder
  refine ⟨_, mem_stratify.mpr ⟨rank, bound, rfl⟩, RelationSymbol.mem_sortDistinct.mpr ?_⟩
  rwa [atRank]

theorem pairwise_stratify (wellFormed : program.WellFormed) :
    (program.stratify.map (·.symbols)).Pairwise List.Disjoint := by
  rw [map_symbols_stratify, List.pairwise_map]
  refine (Digraph.pairwise_componentOrder (closed_dependencies wellFormed)).imp ?_
  intro first second apart symbol inFirst inSecond
  exact apart (RelationSymbol.mem_sortDistinct.mp inFirst)
    (RelationSymbol.mem_sortDistinct.mp inSecond)

/-- A relation that a rule reads is in the stratum of the head or in an earlier one. -/
theorem le_of_reads (wellFormed : program.WellFormed) {rule : Rule} (inProgram : rule ∈ program.rules)
    {atom : Atom} (inBody : .predicate atom ∈ rule.body) (derived : program.IsDerived atom.symbol)
    {earlier later : Nat} {read target : Stratum} (atEarlier : program.stratify[earlier]? = some read)
    (inRead : atom.symbol ∈ read.symbols) (atLater : program.stratify[later]? = some target)
    (inTarget : rule.head.symbol ∈ target.symbols) : earlier ≤ later := by
  have closed := closed_dependencies wellFormed
  have edge : (atom.symbol, rule.head.symbol) ∈ program.dependencies.edges :=
    (feeds_iff_edge wellFormed).mp ⟨derived, rule, inProgram, rfl, atom, inBody, rfl⟩
  have symbols_at : ∀ {position : Nat} {stratum : Stratum},
      program.stratify[position]? = some stratum →
        ∃ part, program.dependencies.componentOrder[position]? = some part ∧
          ∀ symbol, symbol ∈ stratum.symbols ↔ symbol ∈ part := by
    intro position stratum atPosition
    have atMap := congrArg (Option.map Stratum.symbols) atPosition
    rw [← List.getElem?_map, map_symbols_stratify, List.getElem?_map] at atMap
    obtain ⟨part, atPart, symbolsEq⟩ := Option.map_eq_some_iff.mp atMap
    exact ⟨part, atPart, fun symbol => symbolsEq ▸ RelationSymbol.mem_sortDistinct⟩
  obtain ⟨readPart, atRead, mem_read⟩ := symbols_at atEarlier
  obtain ⟨targetPart, atTarget, mem_target⟩ := symbols_at atLater
  obtain ⟨bound, rfl⟩ := List.getElem?_eq_some_iff.mp atTarget
  have split := List.take_append_drop later program.dependencies.componentOrder
  rw [List.drop_eq_getElem_cons bound] at split
  -- The relation is found again at or before the place of the head, and it has one place only.
  have found : ∃ place ≤ later, ∃ part, program.dependencies.componentOrder[place]? = some part ∧
      atom.symbol ∈ part := by
    rcases Digraph.componentOrder_respects closed split.symm edge ((mem_target _).mp inTarget) with
      early | same
    · obtain ⟨part, inTake, inPart⟩ := List.mem_flatten.mp early
      obtain ⟨place, placeBound, atPlace⟩ := List.getElem_of_mem inTake
      rw [List.length_take] at placeBound
      refine ⟨place, by omega, part, ?_, inPart⟩
      rw [← atPlace, List.getElem_take, List.getElem?_eq_getElem]
    · exact ⟨later, le_rfl, _, List.getElem?_eq_getElem bound, same⟩
  obtain ⟨place, placeLe, part, atPlace, inPart⟩ := found
  have disjoint := Digraph.pairwise_componentOrder closed
  obtain ⟨placeBound, rfl⟩ := List.getElem?_eq_some_iff.mp atPlace
  obtain ⟨readBound, rfl⟩ := List.getElem?_eq_some_iff.mp atRead
  by_contra further
  have apart := List.pairwise_iff_getElem.mp disjoint place earlier placeBound readBound (by omega)
  exact apart inPart ((mem_read _).mp inRead)

/-- The strata of a program partition its derived relations into classes of mutually dependent ones,
in an order that all dependencies respect; one of them negates within itself exactly if a cycle of
dependencies passes through a negation. -/
theorem stratified_stratify (built : program.Built) : program.Stratified program.stratify where
  rank_eq position stratum atPosition := by
    obtain ⟨bound, rfl⟩ := List.getElem?_eq_some_iff.mp atPosition
    simp [stratify, Stratum.ofSymbols]
  nonempty stratum member := by
    obtain ⟨part, component, mem_iff⟩ := exists_component built.wellFormed member
    obtain ⟨symbol, inPart⟩ := List.exists_mem_of_ne_nil part component.ne_nil
    exact List.ne_nil_of_mem ((mem_iff symbol).mpr inPart)
  nodup := (layers_stratify built.wellFormed).nodup
  covers symbol := by
    refine ⟨exists_stratum built.wellFormed, ?_⟩
    rintro ⟨stratum, member, inStratum⟩
    exact (layers_stratify built.wellFormed).derived stratum member symbol inStratum
  disjoint := List.pairwise_map.mp (pairwise_stratify built.wellFormed)
  together stratum member first inStratum second _ :=
    (mem_stratum_iff built.wellFormed member inStratum).trans (sameComponent_iff built.wellFormed)
  respects _ inProgram _ inBody derived _ _ _ _ atEarlier inRead atLater inDerived :=
    le_of_reads built.wellFormed inProgram inBody derived atEarlier inRead atLater inDerived
  negation stratum member := by
    rw [(layers_stratify built.wellFormed).negation stratum member, negatesWithin_eq_true]
    simp only [mem_rulesOf, and_assoc]
  cycle := by
    have wellFormed := built.wellFormed
    constructor
    · rintro ⟨stratum, member, flagged⟩
      rw [(layers_stratify wellFormed).negation stratum member, negatesWithin_eq_true] at flagged
      obtain ⟨rule, ruleMember, atom, inBody, negated, inStratum⟩ := flagged
      obtain ⟨inProgram, headInStratum⟩ := mem_rulesOf.mp ruleMember
      have derived := (layers_stratify wellFormed).derived stratum member atom.symbol inStratum
      have same := (mem_stratum_iff wellFormed member headInStratum).mp inStratum
      exact ⟨rule, inProgram, atom, inBody, negated, (mem_ruleSymbols.mp derived).2,
        (leads_iff_reflTransGen wellFormed).mp same.1⟩
    · rintro ⟨rule, inProgram, atom, inBody, negated, derived, leads⟩
      have headDerived : rule.head.symbol ∈ program.ruleSymbols :=
        mem_ruleSymbols.mpr ⟨(wellFormed.heads rule inProgram).declared, rule, inProgram, rfl⟩
      obtain ⟨stratum, member, inStratum⟩ := exists_stratum wellFormed headDerived
      -- The negated relation feeds the head, and there is a way back.
      have feeds : program.Feeds atom.symbol rule.head.symbol :=
        ⟨derived, rule, inProgram, rfl, atom, inBody, rfl⟩
      have same : program.dependencies.SameComponent rule.head.symbol atom.symbol :=
        ⟨(leads_iff_reflTransGen wellFormed).mpr leads,
          (leads_iff_reflTransGen wellFormed).mpr (.single feeds)⟩
      refine ⟨stratum, member, ?_⟩
      rw [(layers_stratify wellFormed).negation stratum member, negatesWithin_eq_true]
      exact ⟨rule, mem_rulesOf.mpr ⟨inProgram, inStratum⟩, atom, inBody, negated,
        (mem_stratum_iff wellFormed member inStratum).mpr same⟩

theorem stratified_stratify_sample : Sample.program.Stratified Sample.program.stratify :=
  stratified_stratify Sample.built

end Program

end Datalog
